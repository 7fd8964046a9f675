import Mathlib
import Reckon.Command
import Reckon.Proofs.Preparing

namespace Reckon

namespace World

theorem print_launched (w : World) (s : Stream) (data : Bytes) :
    (w.print s data).launched = w.launched := by
  cases s <;> rfl

theorem launch_launched (w : World) (name : String) (args : List String) (output : Stream) :
    ∃ started, (w.launch name args output).2.launched = w.launched ++ started ∧
      started <+: [(name, args)] ∧
      ((w.launch name args output).1 = .ok () → started = [(name, args)]) := by
  have hprint : ∀ (written : List (Stream × Bytes)) (w : World), (written.foldl
      (fun w s => w.print (if s.1 = .stdout then output else s.1) s.2) w).launched =
        w.launched := by
    intro written
    induction written with
    | nil => exact fun _ => rfl
    | cons s written ih => exact fun w => (ih _).trans (print_launched w _ _)
  unfold launch
  split
  · exact ⟨[], by simp, List.nil_prefix, by simp⟩
  · exact ⟨[(name, args)], hprint _ _, List.prefix_refl _, fun _ => rfl⟩

end World

namespace Command

inductive Phase where
  | read
  | parse
  | prepare
  | generate
  | write
  | assemble
  | link
  | run
  deriving DecidableEq, Repr

/-- How far a compilation has come. -/
structure Progress where
  world : World
  build : Build
  source : List Char := []
  program : Program := ⟨[]⟩
  code : Bytes := []

def Progress.settle {α : Type} (p : Progress) (r : Except CommandError α) (next : α → Progress) :
    Except CommandError Unit × Progress :=
  match r with
  | .ok a => (.ok (), next a)
  | .error e => (.error e, p)

def Progress.during (p : Progress) (stage : Stage) (r : Except Fault Unit × World) :
    Except CommandError Unit × Progress :=
  (r.1.mapError fun fault => .stage ⟨stage, fault⟩, { p with world := r.2 })

namespace Phase

def early : List Phase := [.read, .parse, .prepare, .generate]

def late (emitOnly : Bool) : List Phase := if emitOnly then [] else [.assemble, .link, .run]

def schedule (emitOnly : Bool) : List Phase := early ++ .write :: late emitOnly

theorem not_early {emitOnly : Bool} {t : Phase} (h : t ∈ .write :: late emitOnly) :
    t ∉ early := by
  revert emitOnly t
  decide

theorem write_not_early : .write ∉ early := by decide

def perform (path : String) (p : Progress) : Phase → Except CommandError Unit × Progress
  | .read =>
    p.settle ((p.world.files.read p.world.directory path).mapError (.read path)) fun data =>
      { p with source := (Text.decode data).chars }
  | .parse =>
    p.settle ((Program.parse p.source).mapError (.parse path)) fun program => { p with program }
  | .prepare =>
    let r := (p.build.prepare (m := StateM World)).run p.world
    (r.1.1.mapError .stage, { p with build := r.1.2, world := r.2 })
  | .generate => p.settle (assembly p.program) fun code => { p with code }
  | .write =>
    p.during .write (p.world.store (p.world.files.write p.world.directory p.build.asmPath p.code))
  | .assemble =>
    p.during .assemble (p.world.launch p.build.assembler
      ["-felf64", p.build.asmPath, "-o", p.build.objPath] .stderr)
  | .link =>
    p.during .link (p.world.launch p.build.linker ["-o", p.build.exePath, p.build.objPath] .stderr)
  | .run => p.during .run (p.world.launch p.build.exePath [] .stdout)

def note (path : String) (p : Progress) : Phase → Option String
  | .parse => some s!"parsed {p.program.exprs.length} expressions from {path}"
  | .write => some s!"generated {p.code.length} bytes -> {p.build.asmPath}"
  | .assemble => some s!"assembled -> {p.build.objPath}"
  | .link => some s!"linked -> {p.build.exePath}"
  | _ => none

def command? (b : Build) : Phase → Option (String × List String)
  | .assemble => some (b.assembler, ["-felf64", b.asmPath, "-o", b.objPath])
  | .link => some (b.linker, ["-o", b.exePath, b.objPath])
  | .run => some (b.exePath, [])
  | _ => none

def commands (b : Build) (ts : List Phase) : List (String × List String) :=
  ts.filterMap (command? b)

theorem commands_cons (b : Build) (t : Phase) (ts : List Phase) :
    commands b (t :: ts) = (t.command? b).toList ++ commands b ts := by
  unfold commands
  cases h : t.command? b <;> simp [h]

def ofError? : CommandError → Option Phase
  | .read .. => some .read
  | .parse .. => some .parse
  | .generate _ => some .generate
  | .stage ⟨.prepare, _⟩ => some .prepare
  | .stage ⟨.write, _⟩ => some .write
  | .stage ⟨.assemble, _⟩ => some .assemble
  | .stage ⟨.link, _⟩ => some .link
  | .stage ⟨.run, _⟩ => some .run
  | .usage _ | .lex .. | .emulate _ => none

def failed? : Except CommandError Unit → Option Phase
  | .ok _ => none
  | .error e => ofError? e

end Phase

def Progress.logged (p : Progress) (o : Options) (path : String) (t : Phase) : Progress :=
  { p with
    world :=
      match t.note path p with
      | some text => if o.verbose then p.world.print .stderr (utf8 (text ++ "\n")) else p.world
      | none => p.world }

/-- Phases are performed one after another until one fails. Each that was performed is listed with
how far it came. -/
inductive Conducts (o : Options) (path : String) : List Phase → Progress →
    List (Phase × Progress) → Except CommandError Unit → World → Prop where
  | done (p : Progress) : Conducts o path [] p [] (.ok ()) p.world
  | stop {t : Phase} {ts : List Phase} {p q : Progress} {e : CommandError}
    (h : t.perform path p = (.error e, q)) :
    Conducts o path (t :: ts) p [(t, q)] (.error e) q.world
  | pass {t : Phase} {ts : List Phase} {p q : Progress} {performed : List (Phase × Progress)}
    {result : Except CommandError Unit} {w : World} (h : t.perform path p = (.ok (), q))
    (rest : Conducts o path ts (q.logged o path t) performed result w) :
    Conducts o path (t :: ts) p ((t, q) :: performed) result w

section

variable {o : Options} {path : String} {t : Phase} {ts : List Phase} {p q : Progress}

def Leads (o : Options) (path : String) (ts : List Phase) (p : Progress)
    (outcome : Except CommandError Unit × World) : Prop :=
  ∃ performed, Conducts o path ts p performed outcome.1 outcome.2

section

variable {α : Type} {x : ExceptT CommandError (StateM World) α}
  {f : α → ExceptT CommandError (StateM World) Unit} {w w' : World}

theorem leads_stop {e : CommandError} (hx : x.run.run w = (.error e, q.world))
    (hq : t.perform path p = (.error e, q)) : Leads o path (t :: ts) p ((x >>= f).run.run w) := by
  rw [run_bind_error hx]
  exact ⟨_, .stop hq⟩

theorem leads_pass {a : α} (hx : x.run.run w = (.ok a, w')) (hq : t.perform path p = (.ok (), q))
    (hrest : Leads o path ts (q.logged o path t) ((f a).run.run w')) :
    Leads o path (t :: ts) p ((x >>= f).run.run w) := by
  obtain ⟨performed, hrest⟩ := hrest
  rw [run_bind_ok hx]
  exact ⟨_, .pass hq hrest⟩

end

theorem leads_log {f : Unit → ExceptT CommandError (StateM World) Unit} {text : String}
    (h : t.note path q = some text)
    (hrest : Leads o path ts (q.logged o path t) ((f ()).run.run (q.logged o path t).world)) :
    Leads o path ts (q.logged o path t)
      (((if o.verbose = true then print .stderr (text ++ "\n") else pure ()) >>= f).run.run
        q.world) := by
  have hrun : ((if o.verbose = true then print .stderr (text ++ "\n") else pure ()) >>= f).run.run
      q.world = (f ()).run.run (q.logged o path t).world := by
    unfold Progress.logged
    by_cases hv : o.verbose = true
    · simp only [h, if_pos hv]
      rfl
    · simp only [h, if_neg hv]
      rfl
  rwa [hrun]

theorem run_adapt {ε α : Type} (g : ε → CommandError) (r : Except ε α) (w : World) :
    (ExceptT.adapt g (.mk (pure r) : ExceptT ε (StateM World) α)).run.run w = (r.mapError g, w) :=
  rfl

theorem run_mk {α : Type} (r : Except CommandError α) (w : World) :
    (.mk (pure r) : ExceptT CommandError (StateM World) α).run.run w = (r, w) := rfl

theorem perform_generate (path : String) (p : Progress) :
    Phase.perform path p .generate = p.settle (assembly p.program) fun code => { p with code } :=
  rfl

theorem leads_settle {α : Type} {r : Except CommandError α} {next : α → Progress}
    {x : ExceptT CommandError (StateM World) α}
    {f : α → ExceptT CommandError (StateM World) Unit}
    (hx : x.run.run p.world = (r, p.world)) (hperform : t.perform path p = p.settle r next)
    (hrest : ∀ a, Leads o path ts ((next a).logged o path t) ((f a).run.run p.world)) :
    Leads o path (t :: ts) p ((x >>= f).run.run p.world) := by
  cases r with
  | error e => exact leads_stop hx hperform
  | ok a => exact leads_pass hx hperform (hrest a)

theorem leads_read {f : List Char → ExceptT CommandError (StateM World) Unit}
    (hrest : ∀ source, Leads o path ts { p with source } ((f source).run.run p.world)) :
    Leads o path (.read :: ts) p ((readSource path >>= f).run.run p.world) := by
  unfold readSource
  simp only [bind_assoc, pure_bind]
  exact leads_settle rfl rfl fun data => hrest _

theorem leads_prepare
    {f : Except StageError Unit × Build → ExceptT CommandError (StateM World) Unit}
    (hrest : ∀ build world,
      Leads o path ts { p with build, world } ((f (.ok (), build)).run.run world)) :
    Leads o path (.prepare :: ts) p
      ((ExceptT.lift p.build.prepare >>= fun r =>
        ExceptT.adapt .stage (.mk (pure r.1)) >>= fun _ => f r).run.run p.world) := by
  rcases hrun : (p.build.prepare (m := StateM World)).run p.world with ⟨⟨r, build⟩, world⟩
  have hlift : (ExceptT.lift (ε := CommandError)
      (p.build.prepare (m := StateM World))).run.run p.world = (.ok (r, build), world) := by
    rw [ExceptT.run_lift, StateT.run_map, hrun]
    rfl
  have hq : Phase.perform path p .prepare = (r.mapError .stage, { p with build, world }) := by
    simp only [Phase.perform, hrun]
  rw [run_bind_ok hlift]
  cases r with
  | error e => exact leads_stop (q := { p with build, world }) rfl hq
  | ok u => exact leads_pass (q := { p with build, world }) rfl hq (hrest build world)

theorem leads_stage {f : Unit → ExceptT CommandError (StateM World) Unit} {s : Stage}
    {action : StateM World (Except Fault Unit)}
    (hperform : t.perform path p = p.during s (action.run p.world))
    (hrest : ∀ world, Leads o path ts (Progress.logged { p with world } o path t)
      ((f ()).run.run world)) :
    Leads o path (t :: ts) p
      ((ExceptT.adapt .stage (Build.during s (.mk action)) >>= f).run.run p.world) := by
  have hx : (ExceptT.adapt CommandError.stage (Build.during s (.mk action))).run.run p.world =
      ((((action.run p.world).1).mapError (StageError.mk s)).mapError .stage,
        (action.run p.world).2) := rfl
  rcases hrun : action.run p.world with ⟨r, world⟩
  rw [hrun] at hperform hx
  cases r with
  | error fault => exact leads_stop (q := { p with world }) hx hperform
  | ok u => exact leads_pass (q := { p with world }) hx hperform (hrest world)

theorem file_leads (o : Options) (path : String) (w : World) (h : o.emulate = false) :
    Leads o path (Phase.schedule o.emitOnly) { world := w, build := o.build }
      ((file (m := StateM World) o path).run.run w) := by
  unfold file readProgram
  simp only [h, bind_assoc, Bool.false_eq_true, ↓reduceIte]
  refine leads_read fun source => ?_
  refine leads_settle (run_adapt _ _ _) rfl fun program => ?_
  refine leads_log rfl ?_
  refine leads_prepare fun build world => ?_
  refine leads_settle (run_mk _ _) (perform_generate _ _) fun code => ?_
  refine leads_stage rfl fun world => ?_
  refine leads_log rfl ?_
  cases o.emitOnly with
  | true => exact ⟨[], .done _⟩
  | false =>
    simp only [Bool.not_false, ↓reduceIte]
    refine leads_stage rfl fun world => ?_
    refine leads_log rfl ?_
    refine leads_stage rfl fun world => ?_
    refine leads_log rfl ?_
    rw [← bind_pure (ExceptT.adapt _ _)]
    exact leads_stage rfl fun world => ⟨[], .done _⟩

def FailedAt (t : Phase) (result : Except CommandError Unit) : Prop :=
  Phase.failed? result = some t

theorem FailedAt.unique {t t' : Phase} {result : Except CommandError Unit}
    (h : FailedAt t result) (h' : FailedAt t' result) : t = t' :=
  Option.some.inj (h.symm.trans h')

section

variable {α : Type} {r : Except CommandError α} {next : α → Progress} {e : CommandError}

theorem settle_error (h : p.settle r next = (.error e, q)) : r = .error e ∧ q = p := by
  cases r with
  | error e' =>
    cases h
    exact ⟨rfl, rfl⟩
  | ok a => cases h

theorem settle_ok (h : p.settle r next = (.ok (), q)) : ∃ a, r = .ok a ∧ q = next a := by
  cases r with
  | error e' => cases h
  | ok a =>
    cases h
    exact ⟨a, rfl, rfl⟩

theorem settle_snd {P : Progress → Prop} (hp : P p) (hnext : ∀ a, P (next a)) :
    P (p.settle r next).2 := by
  cases r with
  | error e => exact hp
  | ok a => exact hnext a

theorem mapError_error {ε ε' : Type} {f : ε → ε'} {r : Except ε α} {e' : ε'}
    (h : r.mapError f = .error e') : ∃ e, r = .error e ∧ f e = e' := by
  cases r with
  | error e =>
    cases h
    exact ⟨e, rfl, rfl⟩
  | ok a => cases h

theorem mapError_ok {ε ε' : Type} {f : ε → ε'} {r : Except ε α} {a : α}
    (h : r.mapError f = .ok a) : r = .ok a := by
  cases r with
  | error e => cases h
  | ok a =>
    cases h
    rfl

end

theorem assembly_cases (program : Program) :
    (∃ output, program.generate {} = (output, none) ∧ assembly program = .ok output.content) ∨
      ∃ output e, program.generate {} = (output, some e) ∧
        assembly program = .error (.generate e) := by
  unfold assembly
  rcases program.generate {} with ⟨output, _ | e⟩
  · exact .inl ⟨output, rfl, rfl⟩
  · exact .inr ⟨output, e, rfl, rfl⟩

theorem assembly_ok {program : Program} {code : Bytes} (h : assembly program = .ok code) :
    ∃ output, program.generate {} = (output, none) ∧ output.content = code := by
  obtain ⟨output, hgen, heq⟩ | ⟨output, e, -, heq⟩ := assembly_cases program
  · exact ⟨output, hgen, Except.ok.inj (heq.symm.trans h)⟩
  · exact absurd (heq.symm.trans h) (by simp)

theorem assembly_error {program : Program} {e : CommandError} (h : assembly program = .error e) :
    Phase.ofError? e = some .generate := by
  obtain ⟨output, -, heq⟩ | ⟨output, e', -, heq⟩ := assembly_cases program
  · exact absurd (heq.symm.trans h) (by simp)
  · rw [← Except.error.inj (heq.symm.trans h)]
    rfl

theorem perform_prepare (path : String) (p : Progress) :
    ∃ (r : Except StageError Unit) (b : Build) (w : World), Phase.perform path p .prepare =
        (r.mapError .stage, { p with build := b, world := w }) ∧ p.world.Refiled w ∧
      (∀ e, r = .error e → e.stage = .prepare) ∧
      (r = .ok () → b = p.build.placed p.world.directory ∧ ∀ path ∈ b.paths, w.Vacant path) := by
  obtain ⟨r, b, w, hrun, hrest⟩ := p.build.run_prepare p.world
  refine ⟨r, b, w, ?_, hrest⟩
  simp only [Phase.perform, hrun]

theorem perform_write (h : Phase.perform path p .write = (.ok (), q)) :
    ∃ root, p.world.files.write p.world.directory p.build.asmPath p.code = .ok root ∧
      q = { p with world := { p.world with files := root } } := by
  cases hw : p.world.files.write p.world.directory p.build.asmPath p.code with
  | error fault =>
    rw [Phase.perform, hw] at h
    cases h
  | ok root =>
    rw [Phase.perform, hw] at h
    cases h
    exact ⟨root, rfl, rfl⟩

theorem ofError?_of_perform {e : CommandError} (h : t.perform path p = (.error e, q)) :
    Phase.ofError? e = some t := by
  have during_error : ∀ {s : Stage} {r : Except Fault Unit × World},
      p.during s r = (.error e, q) → ∃ fault, .stage ⟨s, fault⟩ = e := fun h =>
    (mapError_error (congrArg Prod.fst h)).imp fun _ => And.right
  cases t with
  | read =>
    obtain ⟨fault, -, rfl⟩ := mapError_error (settle_error h).1
    rfl
  | parse =>
    obtain ⟨error, -, rfl⟩ := mapError_error (settle_error h).1
    rfl
  | generate =>
    rw [perform_generate] at h
    exact assembly_error (settle_error h).1
  | prepare =>
    obtain ⟨r, b, w, hperform, -, hstage, -⟩ := perform_prepare path p
    rw [hperform] at h
    obtain ⟨⟨stage, fault⟩, hr, rfl⟩ := mapError_error (congrArg Prod.fst h)
    cases hstage _ hr
    rfl
  | write =>
    obtain ⟨fault, rfl⟩ := during_error h
    rfl
  | assemble =>
    obtain ⟨fault, rfl⟩ := during_error h
    rfl
  | link =>
    obtain ⟨fault, rfl⟩ := during_error h
    rfl
  | run =>
    obtain ⟨fault, rfl⟩ := during_error h
    rfl

theorem perform_build (ht : t ≠ .prepare) : (t.perform path p).2.build = p.build := by
  cases t with
  | prepare => exact absurd rfl ht
  | read => exact settle_snd (P := fun q => q.build = p.build) rfl fun _ => rfl
  | parse => exact settle_snd (P := fun q => q.build = p.build) rfl fun _ => rfl
  | generate =>
    rw [perform_generate]
    exact settle_snd (P := fun q => q.build = p.build) rfl fun _ => rfl
  | write => rfl
  | assemble => rfl
  | link => rfl
  | run => rfl

/-- A phase starts its own program or none, and starts it if the phase goes well. -/
def Starts (t : Phase) (path : String) (p : Progress) : Prop :=
  ∃ started, (t.perform path p).2.world.launched = p.world.launched ++ started ∧
    started <+: (t.command? p.build).toList ∧
    ((t.perform path p).1 = .ok () → started = (t.command? p.build).toList)

theorem starts_none (hc : t.command? p.build = none)
    (hl : (t.perform path p).2.world.launched = p.world.launched) : Starts t path p :=
  ⟨[], by simpa using hl, List.nil_prefix, by simp [hc]⟩

theorem starts_launch {s : Stage} {name : String} {args : List String} {output : Stream}
    (hc : t.command? p.build = some (name, args))
    (hperform : t.perform path p = p.during s (p.world.launch name args output)) :
    Starts t path p := by
  obtain ⟨started, hl, hpre, hok⟩ := p.world.launch_launched name args output
  unfold Starts
  rw [hperform, hc]
  exact ⟨started, hl, hpre, fun h => hok (mapError_ok h)⟩

theorem starts (t : Phase) (path : String) (p : Progress) : Starts t path p := by
  cases t with
  | read => exact starts_none rfl (settle_snd (P := fun q => q.world.launched = _) rfl fun _ => rfl)
  | parse =>
    exact starts_none rfl (settle_snd (P := fun q => q.world.launched = _) rfl fun _ => rfl)
  | generate =>
    refine starts_none rfl ?_
    rw [perform_generate]
    exact settle_snd (P := fun q => q.world.launched = p.world.launched) rfl fun _ => rfl
  | prepare =>
    obtain ⟨r, b, w, hperform, hrefiled, -⟩ := perform_prepare path p
    exact starts_none rfl (hperform ▸ hrefiled.launched)
  | write => exact starts_none rfl (World.refiled_store _ _).launched
  | assemble => exact starts_launch rfl rfl
  | link => exact starts_launch rfl rfl
  | run => exact starts_launch rfl rfl

theorem logged_world (q : Progress) (o : Options) (path : String) (t : Phase) :
    ∃ data, (q.logged o path t).world = { q.world with stderr := q.world.stderr ++ data } := by
  have hsame : ∃ data, q.world = { q.world with stderr := q.world.stderr ++ data } :=
    ⟨[], by simp⟩
  unfold Progress.logged
  split
  · split
    · exact ⟨_, rfl⟩
    · exact hsame
  · exact hsame

namespace Conducts

variable {performed : List (Phase × Progress)} {result : Except CommandError Unit} {w : World}

/-- The phases come in their order, and all of them do unless the last of those performed fails. -/
theorem phases (h : Conducts o path ts p performed result w) :
    performed.map Prod.fst <+: ts ∧
      (result = .ok () ∧ performed.map Prod.fst = ts ∨
        ∃ t, (performed.map Prod.fst).getLast? = some t ∧ FailedAt t result) := by
  induction h with
  | done p => exact ⟨List.nil_prefix, .inl ⟨rfl, rfl⟩⟩
  | stop h => exact ⟨by simp, .inr ⟨_, rfl, ofError?_of_perform h⟩⟩
  | pass h rest ih =>
    obtain ⟨hpre, hend⟩ := ih
    refine ⟨by simpa using hpre, ?_⟩
    obtain ⟨hok, hall⟩ | ⟨t', hlast, hfailed⟩ := hend
    · exact .inl ⟨hok, by simp [hall]⟩
    · refine .inr ⟨t', ?_, hfailed⟩
      rw [List.map_cons, List.getLast?_cons, hlast]
      rfl

theorem mem_of_failedAt (h : Conducts o path ts p performed result w) (ht : FailedAt t result) :
    t ∈ ts := by
  obtain ⟨hpre, ⟨rfl, -⟩ | ⟨t', hlast, ht'⟩⟩ := h.phases
  · cases ht
  · rw [ht.unique ht']
    exact hpre.subset (List.mem_of_getLast? hlast)

/-- No program is started but those of the phases performed, and of these at most the one of the
last phase is not. -/
theorem launched (h : Conducts o path ts p performed result w) (hts : .prepare ∉ ts) :
    ∃ started, w.launched = p.world.launched ++ started ∧
      Phase.commands p.build (performed.map Prod.fst).dropLast <+: started ∧
      started <+: Phase.commands p.build (performed.map Prod.fst) := by
  induction h with
  | done p => exact ⟨[], by simp, List.prefix_refl _, List.nil_prefix⟩
  | @stop t ts p q e h =>
    obtain ⟨started, hl, hpre, -⟩ := starts t path p
    rw [h] at hl
    refine ⟨started, hl, List.nil_prefix, ?_⟩
    rw [List.map_cons, Phase.commands_cons]
    exact hpre.trans (List.prefix_append _ _)
  | @pass t ts p q performed result w h rest ih =>
    have hbuild : (t.perform path p).2.build = p.build :=
      perform_build fun heq => hts (by simp [heq])
    obtain ⟨started, hl, -, hok⟩ := starts t path p
    obtain ⟨data, hlogged⟩ := logged_world q o path t
    obtain ⟨others, hl', hlow, hhigh⟩ := ih fun hmem => hts (List.mem_cons_of_mem t hmem)
    rw [h] at hbuild hl hok
    rw [show (q.logged o path t).build = p.build from hbuild] at hlow hhigh
    rw [hlogged] at hl'
    refine ⟨started ++ others, by rw [hl', hl, List.append_assoc], ?_, ?_⟩
    · rw [List.map_cons]
      cases hp : performed.map Prod.fst with
      | nil => exact List.nil_prefix
      | cons t' ts' =>
        rw [hp] at hlow
        rw [List.dropLast_cons_cons, Phase.commands_cons, hok rfl]
        exact (List.prefix_append_right_inj _).2 hlow
    · rw [List.map_cons, Phase.commands_cons, hok rfl]
      exact (List.prefix_append_right_inj _).2 hhigh

end Conducts

structure Parsed (o : Options) (path : String) (w : World) (p : Progress) : Prop where
  build : p.build = o.build
  files : p.world.files = w.files
  directory : p.world.directory = w.directory
  launched : p.world.launched = w.launched
  program : ∃ data, w.files.read w.directory path = .ok data ∧
    Program.parse (Text.decode data).chars = .ok p.program

theorem Parsed.logged {w : World} (h : Parsed o path w p) (t : Phase) :
    Parsed o path w (p.logged o path t) := by
  obtain ⟨text, hlogged⟩ := logged_world p o path t
  refine ⟨h.build, ?_, ?_, ?_, h.program⟩
  · rw [hlogged]
    exact h.files
  · rw [hlogged]
    exact h.directory
  · rw [hlogged]
    exact h.launched

structure Compiled (o : Options) (path : String) (w : World) (p : Progress) : Prop where
  build : p.build = o.build.placed w.directory
  directory : p.world.directory = w.directory
  launched : p.world.launched = w.launched
  program : ∃ data, w.files.read w.directory path = .ok data ∧
    Program.parse (Text.decode data).chars = .ok p.program
  code : assembly p.program = .ok p.code

namespace Conducts

variable {performed : List (Phase × Progress)} {result : Except CommandError Unit} {w w' : World}

theorem parsed (h : Conducts o path (.read :: .parse :: ts) { world := w, build := o.build }
      performed result w') :
    (∃ t ∈ [Phase.read, .parse], FailedAt t result ∧ w'.files = w.files ∧
        w'.launched = w.launched ∧ performed.map Prod.fst <+: [.read, .parse]) ∨
      ∃ front rest q, performed = front ++ rest ∧ front.map Prod.fst = [.read, .parse] ∧
        Parsed o path w q ∧ Conducts o path ts q rest result w' := by
  cases h with
  | stop h =>
    have hfailed := ofError?_of_perform h
    obtain ⟨-, rfl⟩ := settle_error h
    exact .inl ⟨.read, by simp, hfailed, rfl, rfl, by simp⟩
  | pass h rest =>
    obtain ⟨data, hread, rfl⟩ := settle_ok h
    cases rest with
    | stop h' =>
      have hfailed := ofError?_of_perform h'
      obtain ⟨-, rfl⟩ := settle_error h'
      exact .inl ⟨.parse, by simp, hfailed, rfl, rfl, by simp⟩
    | @pass _ _ _ q rest _ _ h' hrest =>
      obtain ⟨program, hparse, rfl⟩ := settle_ok h'
      refine .inr ⟨[_, _], rest, _, rfl, rfl, ?_, hrest⟩
      have hparsed : Parsed o path w
          { world := w, build := o.build, source := (Text.decode data).chars, program } :=
        ⟨rfl, rfl, rfl, rfl, data, mapError_ok hread, mapError_ok hparse⟩
      exact hparsed.logged .parse

theorem compiled (hp : Parsed o path w p)
    (h : Conducts o path (.prepare :: .generate :: ts) p performed result w') :
    (∃ t ∈ [Phase.prepare, .generate], FailedAt t result ∧ w'.launched = w.launched ∧
        (t = .generate → ∀ path ∈ (o.build.placed w.directory).paths, w'.Vacant path) ∧
        performed.map Prod.fst <+: [.prepare, .generate]) ∨
      ∃ front rest q, performed = front ++ rest ∧ front.map Prod.fst = [.prepare, .generate] ∧
        Compiled o path w q ∧ Conducts o path ts q rest result w' := by
  obtain ⟨r, b, w₁, hprepare, hrefiled, -, hok⟩ := perform_prepare path p
  have hlaunched : w₁.launched = w.launched := hrefiled.launched.trans hp.launched
  have hdirectory : w₁.directory = w.directory := hrefiled.directory.trans hp.directory
  cases h with
  | stop h =>
    have hfailed := ofError?_of_perform h
    obtain ⟨-, rfl⟩ := Prod.mk.inj (hprepare.symm.trans h)
    exact .inl ⟨.prepare, by simp, hfailed, hlaunched, nofun, by simp⟩
  | pass h rest =>
    obtain ⟨hr, rfl⟩ := Prod.mk.inj (hprepare.symm.trans h)
    obtain ⟨rfl, hvacant⟩ := hok (mapError_ok hr)
    rw [hp.build, hp.directory] at hvacant
    cases rest with
    | stop h' =>
      have hfailed := ofError?_of_perform h'
      rw [perform_generate] at h'
      obtain ⟨-, rfl⟩ := settle_error h'
      exact .inl ⟨.generate, by simp, hfailed, hlaunched, fun _ => hvacant, by simp⟩
    | @pass _ _ _ q rest _ _ h' hrest =>
      rw [perform_generate] at h'
      obtain ⟨code, hcode, rfl⟩ := settle_ok h'
      refine .inr ⟨[_, _], rest, _, rfl, rfl, ?_, hrest⟩
      exact ⟨by rw [← hp.build, ← hp.directory]; rfl, hdirectory, hlaunched, hp.program, hcode⟩

theorem halted_or_compiled
    (h : Conducts o path (Phase.early ++ ts) { world := w, build := o.build } performed result w') :
    (performed.map Prod.fst <+: Phase.early ∧ w'.launched = w.launched ∧
        ∃ t ∈ Phase.early, FailedAt t result ∧ (t = .read ∨ t = .parse → w'.files = w.files) ∧
          (t = .generate → ∀ path ∈ (o.build.placed w.directory).paths, w'.Vacant path)) ∨
      ∃ front rest q, performed = front ++ rest ∧ front.map Prod.fst = Phase.early ∧
        Compiled o path w q ∧ Conducts o path ts q rest result w' := by
  obtain ⟨t, ht, hfailed, hfiles, hlaunched, hpre⟩ | ⟨front, rest, p, rfl, hfront, hp, hrest⟩ :=
    h.parsed
  · refine .inl ⟨hpre.trans ⟨[.prepare, .generate], rfl⟩, hlaunched, t, ?_, hfailed,
      fun _ => hfiles, ?_⟩
    · exact List.mem_append_left [Phase.prepare, .generate] ht
    · rintro rfl
      simp at ht
  obtain ⟨t, ht, hfailed, hlaunched, hvacant, hpre⟩ | ⟨front', rest, q, rfl, hfront', hq, hrest⟩ :=
    hrest.compiled hp
  · refine .inl ⟨?_, hlaunched, t, ?_, hfailed, ?_, hvacant⟩
    · rw [List.map_append, hfront]
      exact (List.prefix_append_right_inj _).2 hpre
    · exact List.mem_append_right [Phase.read, .parse] ht
    · rintro (rfl | rfl) <;> simp at ht
  · refine .inr ⟨front ++ front', rest, q, by simp, ?_, hq, hrest⟩
    rw [List.map_append, hfront, hfront']
    rfl

theorem written (hp : Compiled o path w p)
    (h : Conducts o path (.write :: ts) p performed result w') (hts : .write ∉ ts)
    (hresult : ¬FailedAt .write result) {q : Progress} (hq : (.write, q) ∈ performed) :
    q.program = p.program ∧
      ∃ x, q.world.files.at? w.directory (o.build.placed w.directory).asmPath =
        some (.file p.code x) := by
  cases h with
  | stop h => exact absurd (ofError?_of_perform h) hresult
  | pass h rest =>
    obtain heq | hmem := List.mem_cons.1 hq
    · cases heq
      obtain ⟨root, hroot, rfl⟩ := perform_write h
      rw [hp.build, hp.directory] at hroot
      exact ⟨rfl, Node.at?_write (Path.straight_join (Build.isRooted_placed _ _) _) hroot⟩
    · exact absurd (rest.phases.1.subset (List.mem_map_of_mem hmem)) hts

section

variable (h : Conducts o path (Phase.schedule o.emitOnly) { world := w, build := o.build }
  performed result w')
include h

theorem files_of_unread (hf : FailedAt .read result ∨ FailedAt .parse result) :
    w'.files = w.files := by
  obtain ⟨-, -, t, ht, hfailed, hfiles, -⟩ | ⟨front, rest, p, -, -, -, hrest⟩ :=
    h.halted_or_compiled
  · exact hfiles (hf.imp hfailed.unique hfailed.unique)
  · obtain hf | hf := hf
    · exact absurd (by decide) (Phase.not_early (hrest.mem_of_failedAt hf))
    · exact absurd (by decide) (Phase.not_early (hrest.mem_of_failedAt hf))

theorem vacant_of_ungenerated (hf : FailedAt .generate result) :
    (∀ path ∈ (o.build.placed w.directory).paths, w'.Vacant path) ∧
      (∀ q, (.write, q) ∉ performed) ∧ w'.launched = w.launched := by
  obtain ⟨hpre, hlaunched, t, ht, hfailed, -, hvacant⟩ | ⟨front, rest, p, -, -, -, hrest⟩ :=
    h.halted_or_compiled
  · refine ⟨hvacant (hfailed.unique hf), fun q hq => ?_, hlaunched⟩
    exact absurd (hpre.subset (List.mem_map_of_mem hq)) Phase.write_not_early
  · exact absurd (by decide) (Phase.not_early (hrest.mem_of_failedAt hf))

theorem started : ∃ started, w'.launched = w.launched ++ started ∧
    Phase.commands (o.build.placed w.directory) (performed.map Prod.fst).dropLast <+: started ∧
    started <+: Phase.commands (o.build.placed w.directory) (performed.map Prod.fst) := by
  obtain ⟨hpre, hlaunched, -⟩ | ⟨front, rest, p, rfl, hfront, hp, hrest⟩ := h.halted_or_compiled
  · refine ⟨[], by simpa using hlaunched, ?_, List.nil_prefix⟩
    exact ((List.dropLast_prefix _).trans hpre).filterMap _
  · obtain ⟨started, hstarted, hlow, hhigh⟩ :=
      hrest.launched fun hmem => Phase.not_early hmem (by decide)
    rw [hp.launched] at hstarted
    rw [hp.build] at hlow hhigh
    rw [List.map_append, hfront]
    refine ⟨started, hstarted, ?_, hhigh⟩
    cases hr : rest.map Prod.fst with
    | nil => exact List.nil_prefix
    | cons t ts =>
      rw [hr] at hlow
      rwa [List.dropLast_append_of_ne_nil (by simp)]

theorem text_of_written {q : Progress} (hq : (.write, q) ∈ performed)
    (hresult : ¬FailedAt .write result) :
    ∃ data output x, w.files.read w.directory path = .ok data ∧
      Program.parse (Text.decode data).chars = .ok q.program ∧
      q.program.generate {} = (output, none) ∧
      q.world.files.at? w.directory (o.build.placed w.directory).asmPath =
        some (.file output.content x) := by
  obtain ⟨hpre, -⟩ | ⟨front, rest, p, rfl, hfront, hp, hrest⟩ := h.halted_or_compiled
  · exact absurd (hpre.subset (List.mem_map_of_mem hq)) Phase.write_not_early
  · obtain hq | hq := List.mem_append.1 hq
    · exact absurd (hfront ▸ List.mem_map_of_mem hq) Phase.write_not_early
    · have hlate : Phase.write ∉ Phase.late o.emitOnly := by cases o.emitOnly <;> decide
      obtain ⟨hprogram, x, hx⟩ := hrest.written hp hlate hresult hq
      obtain ⟨data, hread, hparse⟩ := hp.program
      obtain ⟨output, hgen, hcode⟩ := assembly_ok hp.code
      rw [← hprogram] at hparse hgen
      exact ⟨data, output, x, hread, hparse, hgen, hcode ▸ hx⟩

end

end Conducts

end

/-- A compilation goes through its phases in their order up to the first that fails, and the error
of that phase is its result. A source that cannot be read or parsed leaves all files alone. One that
has no assembly leaves nothing at the paths of the build, and starts no program. No program is
started after one that failed, and the assembly that is written is that of the program read. -/
theorem file_stages_fail_closed (o : Options) (path : String) (w : World)
    (h : o.emulate = false) :
    let build := o.build.placed w.directory
    ∃ (performed : List (Phase × Progress)) (result : Except CommandError Unit) (w' : World),
      (file (m := StateM World) o path).run.run w = (result, w') ∧
      Conducts o path (Phase.schedule o.emitOnly) { world := w, build := o.build }
        performed result w' ∧
      performed.map Prod.fst <+: Phase.schedule o.emitOnly ∧
      (result = .ok () ∧ performed.map Prod.fst = Phase.schedule o.emitOnly ∨
        ∃ t, (performed.map Prod.fst).getLast? = some t ∧ FailedAt t result) ∧
      (FailedAt .read result ∨ FailedAt .parse result → w'.files = w.files) ∧
      (FailedAt .generate result → (∀ path ∈ build.paths, w'.Vacant path) ∧
        (∀ q, (.write, q) ∉ performed) ∧ w'.launched = w.launched) ∧
      (∃ started, w'.launched = w.launched ++ started ∧
        Phase.commands build (performed.map Prod.fst).dropLast <+: started ∧
        started <+: Phase.commands build (performed.map Prod.fst)) ∧
      ∀ q, (.write, q) ∈ performed → ¬FailedAt .write result →
        ∃ data output x, w.files.read w.directory path = .ok data ∧
          Program.parse (Text.decode data).chars = .ok q.program ∧
          q.program.generate {} = (output, none) ∧
          q.world.files.at? w.directory build.asmPath = some (.file output.content x) := by
  intro build
  have hleads := file_leads o path w h
  rcases hrun : (file (m := StateM World) o path).run.run w with ⟨result, w'⟩
  rw [hrun] at hleads
  obtain ⟨performed, hc⟩ := hleads
  exact ⟨performed, result, w', rfl, hc, hc.phases.1, hc.phases.2, hc.files_of_unread,
    hc.vacant_of_ungenerated, hc.started, fun q => hc.text_of_written⟩

theorem file_stages_fail_closed_unparsed :
    let w : World := {
      files := .directory [("a", .file (utf8 ")") false),
        ("output", .directory [("output.asm", .file [] false)])]
      directory := []
      tools := .standard }
    ({} : Options).emulate = false ∧
      ∃ (performed : List (Phase × Progress)) (result : Except CommandError Unit) (w' : World),
        (file (m := StateM World) {} "a").run.run w = (result, w') ∧ FailedAt .parse result ∧
        (performed.map Prod.fst).getLast? = some .parse ∧ w'.files = w.files := by
  intro w
  obtain ⟨performed, result, w', hrun, -, -, hlast, hfiles, -⟩ :=
    file_stages_fail_closed {} "a" w rfl
  have hresult : ((file (m := StateM World) {} "a").run.run w).1 = result := by rw [hrun]
  have hfailed : FailedAt .parse result := by
    rw [← hresult]
    cbv
  refine ⟨rfl, performed, result, w', hrun, hfailed, ?_, hfiles (.inr hfailed)⟩
  obtain ⟨rfl, -⟩ | ⟨t, ht, hf⟩ := hlast
  · cases hfailed
  · rw [ht, hfailed.unique hf]

end Command

end Reckon
