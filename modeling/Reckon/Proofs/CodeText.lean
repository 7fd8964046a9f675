import Reckon.Proofs.Generation
import Reckon.Proofs.NumeralText
import Reckon.Proofs.Refinement
import Reckon.Proofs.TreeShape

namespace Reckon

def Immediate.IsFinite : Immediate → Prop
  | .int _ => True
  | .float x => x.exponentField ≠ 255

theorem Literal.Proper.isFinite {v : Immediate} (h : v.literal.Proper) : v.IsFinite := by
  cases v with
  | int v => trivial
  | float x => simpa [Single.isFinite, Immediate.IsFinite] using h.1

namespace Assembly

section Immediate

variable {v w : Immediate}

theorem toList_int (v : Int32) : ∃ sign ds, (immediateText (.int v)).toList = sign ++ ds ∧
    (sign = [] ∨ sign = ['-']) ∧ AllDigits ds ∧ ds.length ≤ 10 := by
  have hlow := v.le_toInt
  have hhigh := v.toInt_lt
  have hlen : (Nat.toDigits 10 v.toInt.natAbs).length ≤ 10 := by
    apply (Nat.length_toDigits_le_iff (by decide) (by decide)).2
    omega
  rw [immediateText, Immediate.text, Int.toString_eq_repr, Int.repr_eq_if]
  split
  · have habs : v.toInt.toNat = v.toInt.natAbs := by omega
    rw [habs]
    exact ⟨[], _, String.toList_ofList, .inl rfl, allDigits_toDigits _, hlen⟩
  · have habs : (-v.toInt).toNat = v.toInt.natAbs := by omega
    rw [habs, String.toList_append, Nat.repr]
    exact ⟨['-'], _, congrArg (_ ++ ·) String.toList_ofList, .inr rfl, allDigits_toDigits _, hlen⟩

theorem toList_float (x : Single) : (immediateText (.float x)).toList =
    "__float32__(".toList ++ withPoint x.text.toList ++ [')'] := by
  simp only [immediateText, String.toList_append, String.toList_ofList]
  rfl

theorem mem_int {v : Int32} {c : Char} (h : c ∈ (immediateText (.int v)).toList) :
    c.isDigit ∨ c = '-' := by
  obtain ⟨sign, ds, hlist, hsign, hds, -⟩ := toList_int v
  rw [hlist, List.mem_append] at h
  rcases h with h | h
  · rcases hsign with rfl | rfl
    · cases h
    · exact .inr (List.mem_singleton.1 h)
  · exact .inl (hds c h)

theorem length_immediateText (hv : v.IsFinite) : (immediateText v).toList.length ≤ 130 := by
  cases v with
  | int v =>
    obtain ⟨sign, ds, hlist, hsign, -, hlen⟩ := toList_int v
    have hone : sign.length ≤ 1 := by rcases hsign with rfl | rfl <;> decide
    rw [hlist, List.length_append]
    omega
  | float x =>
    have htext := Single.length_text hv
    have hpoint := length_withPoint x.text.toList
    have hopening : "__float32__(".toList.length = 12 := by decide
    rw [toList_float, List.length_append, List.length_append, List.length_singleton]
    omega

theorem newline_not_mem_immediateText (hv : v.IsFinite) : '\n' ∉ (immediateText v).toList := by
  intro hmem
  cases v with
  | int v => exact absurd (mem_int hmem) (by decide)
  | float x =>
    obtain ⟨front, back, exponent, hp, -⟩ := Single.pointed_shortest hv
    have hbody : '\n' ∉ withPoint (Single.decimalText x.shortest) :=
      fun hc => absurd (hp.mem hc) (by decide)
    rw [toList_float, Single.toList_text hv] at hmem
    simp only [List.mem_append, List.mem_singleton] at hmem
    rcases hmem with (hc | hc) | hc
    · exact absurd hc (by decide)
    · split at hc
      · rw [Single.withPoint_minus] at hc
        exact hbody ((List.mem_cons.1 hc).resolve_left (by decide))
      · exact hbody hc
    · exact absurd hc (by decide)

theorem int_ne_float (v : Int32) (x : Single) :
    immediateText (.int v) ≠ immediateText (.float x) := by
  intro h
  have hunder : '_' ∈ (immediateText (.int v)).toList := by
    rw [h, toList_float, List.append_assoc]
    exact List.mem_append_left _ (by decide)
  exact absurd (mem_int hunder) (by decide)

theorem immediateText_injective (hv : v.IsFinite) (hw : w.IsFinite)
    (h : immediateText v = immediateText w) : v = w := by
  cases v with
  | int v =>
    cases w with
    | int w =>
      rw [immediateText, immediateText, Immediate.text, Immediate.text, Int.toString_eq_repr,
        Int.toString_eq_repr] at h
      rw [Int32.toInt_inj.1 (Int.repr_injective h)]
    | float y => exact absurd h (int_ne_float v y)
  | float x =>
    cases w with
    | int w => exact absurd h.symm (int_ne_float w x)
    | float y =>
      have hlist := congrArg String.toList h
      rw [toList_float, toList_float, List.append_assoc, List.append_assoc] at hlist
      have htext := List.append_cancel_right (List.append_cancel_left hlist)
      have hread := Single.read?_withPoint (x := x) hv
      rw [htext, Single.read?_withPoint (x := y) hw] at hread
      rw [Option.some.inj hread]

end Immediate

def fixedInstrs : List Instr :=
  [.combine .add, .combine .sub, .combine .mul, .combine .eq, .call dumpRoutine, .exit]

/-- An instruction that has lines and whose constant, if it has one, is a number. -/
inductive Legible : Instr → Prop where
  | push {v : Immediate} : v.IsFinite → Legible (.push v)
  | fixed {i : Instr} : i ∈ fixedInstrs → Legible i

open Processor (texts_push)

variable {i j : Instr} {code code' : List Instr}

namespace Legible

theorem writable (h : Legible i) : Writable i := by
  cases h with
  | push hv => exact ⟨_, rfl⟩
  | fixed hi =>
    simp only [fixedInstrs, List.mem_cons, List.not_mem_nil, or_false] at hi
    rcases hi with rfl | rfl | rfl | rfl | rfl | rfl <;> exact ⟨_, rfl⟩

theorem length_le (h : Legible i) : ∀ t ∈ texts i, t.toList.length ≤ 139 := by
  cases h with
  | push hv =>
    have hlen := length_immediateText hv
    have hopening : "    push ".toList.length = 9 := by decide
    rw [texts_push]
    refine List.forall_mem_cons.2 ⟨by decide, List.forall_mem_singleton.2 ?_⟩
    rw [String.toList_append, List.length_append]
    omega
  | fixed hi =>
    have hall : ∀ i ∈ fixedInstrs, ∀ t ∈ texts i, t.toList.length ≤ 139 := by decide
    exact hall i hi

theorem newline_not_mem (h : Legible i) : ∀ t ∈ texts i, '\n' ∉ t.toList := by
  cases h with
  | push hv =>
    rw [texts_push]
    refine List.forall_mem_cons.2 ⟨by decide, List.forall_mem_singleton.2 ?_⟩
    rw [String.toList_append, List.mem_append, not_or]
    exact ⟨by decide, newline_not_mem_immediateText hv⟩
  | fixed hi =>
    have hall : ∀ i ∈ fixedInstrs, ∀ t ∈ texts i, '\n' ∉ t.toList := by decide
    exact hall i hi

theorem head_ne_push (hi : i ∈ fixedInstrs) (v : Immediate) :
    (texts i).head? ≠ (texts (.push v)).head? := by
  have hall : ∀ i ∈ fixedInstrs, (texts i).head? ≠ some "    ;; -- push  --" := by decide
  rw [texts_push]
  exact hall i hi

theorem texts_ne_nil (h : Legible i) : texts i ≠ [] := by
  cases h with
  | push hv =>
    rw [texts_push]
    exact List.cons_ne_nil _ _
  | fixed hi =>
    have hall : ∀ i ∈ fixedInstrs, texts i ≠ [] := by decide
    exact hall i hi

/-- The lines of an instruction show what it is, and so where they end. -/
theorem texts_append_inj (hi : Legible i) (hj : Legible j) {ts us : List String}
    (h : texts i ++ ts = texts j ++ us) : i = j ∧ ts = us := by
  have hhead : (texts i).head? = (texts j).head? := by
    rw [← List.head?_append_of_ne_nil _ hi.texts_ne_nil, h,
      List.head?_append_of_ne_nil _ hj.texts_ne_nil]
  have hij : i = j := by
    cases hi with
    | push hv =>
      cases hj with
      | push hw =>
        rw [texts_push, texts_push] at h
        have hsecond := (List.cons.inj (List.cons.inj h).2).1
        rw [immediateText_injective hv hw (String.append_right_inj _ |>.1 hsecond)]
      | fixed hj => exact absurd hhead.symm (head_ne_push hj _)
    | fixed hi =>
      cases hj with
      | push hw => exact absurd hhead (head_ne_push hi _)
      | fixed hj =>
        have hall : ∀ i ∈ fixedInstrs, ∀ j ∈ fixedInstrs,
            (texts i).head? = (texts j).head? → i = j := by decide
        exact hall i hi j hj hhead
  subst hij
  exact ⟨rfl, List.append_cancel_left h⟩

theorem flatMap_ne_nil (hi : Legible i) (code : List Instr) : (i :: code).flatMap texts ≠ [] := by
  rw [List.flatMap_cons]
  exact List.append_ne_nil_of_left_ne_nil hi.texts_ne_nil _

end Legible

theorem flatMap_texts_injective (hcode : ∀ i ∈ code, Legible i) (hcode' : ∀ i ∈ code', Legible i)
    (h : code.flatMap texts = code'.flatMap texts) : code = code' := by
  induction code generalizing code' with
  | nil =>
    cases code' with
    | nil => rfl
    | cons j js => exact absurd h.symm ((hcode' j List.mem_cons_self).flatMap_ne_nil js)
  | cons i is ih =>
    obtain ⟨hi, his⟩ := List.forall_mem_cons.1 hcode
    cases code' with
    | nil => exact absurd h (hi.flatMap_ne_nil is)
    | cons j js =>
      obtain ⟨hj, hjs⟩ := List.forall_mem_cons.1 hcode'
      rw [List.flatMap_cons, List.flatMap_cons] at h
      obtain ⟨rfl, hrest⟩ := hi.texts_append_inj hj h
      rw [ih his hjs hrest]

theorem length_utf8 (s : String) : (utf8 s).length ≤ 4 * s.toList.length := by
  rw [utf8]
  induction s.toList with
  | nil => exact Nat.le_refl 0
  | cons c cs ih =>
    have hc := c.utf8Size_le_four
    rw [List.flatMap_cons, List.length_append, String.length_utf8EncodeChar, List.length_cons]
    omega

theorem flatMap_utf8_injective {cs ds : List Char}
    (h : cs.flatMap String.utf8EncodeChar = ds.flatMap String.utf8EncodeChar) : cs = ds := by
  have hdecode : some cs.toArray = some ds.toArray := by
    rw [← List.utf8Decode?_utf8Encode, ← List.utf8Decode?_utf8Encode]
    exact congrArg (fun b : Bytes => b.toByteArray.utf8Decode?) h
  exact List.toArray_inj (Option.some.inj hdecode)

theorem append_cons_inj {c : Char} {xs ys us vs : List Char} (hx : c ∉ xs) (hy : c ∉ ys)
    (h : xs ++ c :: us = ys ++ c :: vs) : xs = ys ∧ us = vs := by
  induction xs generalizing ys with
  | nil =>
    cases ys with
    | nil => exact ⟨rfl, (List.cons.inj h).2⟩
    | cons y ys => exact absurd (List.cons.inj h).1 (List.ne_of_not_mem_cons hy)
  | cons x xs ih =>
    cases ys with
    | nil => exact absurd (List.cons.inj h).1.symm (List.ne_of_not_mem_cons hx)
    | cons y ys =>
      obtain ⟨rfl, hrest⟩ := List.cons.inj h
      obtain ⟨rfl, rfl⟩ :=
        ih (List.not_mem_of_not_mem_cons hx) (List.not_mem_of_not_mem_cons hy) hrest
      exact ⟨rfl, rfl⟩

theorem textBytes_eq (ts : List String) :
    textBytes ts = (ts.flatMap fun t => t.toList ++ ['\n']).flatMap String.utf8EncodeChar := by
  rw [textBytes, List.flatMap_assoc]
  simp only [utf8, String.toList_append]
  rfl

theorem textBytes_injective {ts us : List String} (hts : ∀ t ∈ ts, '\n' ∉ t.toList)
    (hus : ∀ t ∈ us, '\n' ∉ t.toList) (h : textBytes ts = textBytes us) : ts = us := by
  rw [textBytes_eq, textBytes_eq] at h
  replace h := flatMap_utf8_injective h
  induction ts generalizing us with
  | nil =>
    cases us with
    | nil => rfl
    | cons u us => simp at h
  | cons t ts ih =>
    cases us with
    | nil => simp at h
    | cons u us =>
      obtain ⟨ht, hts⟩ := List.forall_mem_cons.1 hts
      obtain ⟨hu, hus⟩ := List.forall_mem_cons.1 hus
      simp only [List.flatMap_cons, List.append_assoc, List.singleton_append] at h
      obtain ⟨hhead, hrest⟩ := append_cons_inj ht hu h
      rw [String.toList_injective hhead, ih hts hus hrest]

def listing (code : List Instr) : Bytes :=
  textBytes (Assembly.prologue.map Line.text ++ code.flatMap texts)

theorem textBytes_append (ts us : List String) :
    textBytes (ts ++ us) = textBytes ts ++ textBytes us := List.flatMap_append

theorem textBytes_map (ls : List Line) : textBytes (ls.map Line.text) = ls.flatMap Line.bytes := by
  rw [textBytes, List.flatMap_map]
  rfl

theorem listing_append (code code' : List Instr) :
    listing (code ++ code') = listing code ++ textBytes (code'.flatMap texts) := by
  rw [listing, List.flatMap_append, ← List.append_assoc, textBytes_append, listing]

theorem listing_injective (hcode : ∀ i ∈ code, Legible i) (hcode' : ∀ i ∈ code', Legible i)
    (h : listing code = listing code') : code = code' := by
  rw [listing, listing, textBytes_append, textBytes_append] at h
  apply flatMap_texts_injective hcode hcode'
  apply textBytes_injective _ _ (List.append_cancel_left h)
  · intro t ht
    obtain ⟨i, hi, ht⟩ := List.mem_flatMap.1 ht
    exact (hcode i hi).newline_not_mem t ht
  · intro t ht
    obtain ⟨i, hi, ht⟩ := List.mem_flatMap.1 ht
    exact (hcode' i hi).newline_not_mem t ht

end Assembly

open Assembly (Legible listing)

theorem Expr.Lowers.legible {e : Expr} {code : List Instr} (h : e.Lowers code) :
    ∀ i ∈ code, Legible i := by
  induction h with
  | push hv => exact List.forall_mem_singleton.2 (.push hv.isFinite)
  | @combine k c _ _ _ _ hc _ _ ihl ihr =>
    have hmem : .combine c ∈ Assembly.fixedInstrs := by
      cases k <;> cases hc <;> decide
    have hoperands := List.forall_mem_append.2 ⟨ihl, ihr⟩
    exact List.forall_mem_append.2 ⟨hoperands, List.forall_mem_singleton.2 (.fixed hmem)⟩
  | call hn _ ih =>
    obtain ⟨-, rfl⟩ := routine?_eq_some hn
    have hmem : .call dumpRoutine ∈ Assembly.fixedInstrs := by decide
    exact List.forall_mem_append.2 ⟨ih, List.forall_mem_singleton.2 (.fixed hmem)⟩

namespace Program

variable {es : List Expr} {code : List Instr}

theorem legible_of_body (hes : ∀ e ∈ es, e.WellFormed) (h : body es = .ok code) :
    ∀ i ∈ code, Legible i := by
  induction es generalizing code with
  | nil =>
    cases h
    exact List.forall_mem_nil _
  | cons e es ih =>
    obtain ⟨he, hes⟩ := List.forall_mem_cons.1 hes
    obtain ⟨first, rest, hfirst, hrest, rfl⟩ := body_cons_ok h
    exact List.forall_mem_append.2 ⟨(he.lowers hfirst).legible, ih hes hrest⟩

end Program

/-- Into a sink without a limit, the whole assembly is written. -/
theorem Program.generate_listing {p : Program} {code : List Instr} (h : p.lower = .ok code) :
    p.generate {} = ({ content := listing code }, none) := by
  obtain ⟨blocks, hblocks, hg⟩ := generate_of_lower h []
  obtain ⟨cb, hb, hc⟩ := bind_eq_ok.1 h
  cases hc
  have hwritable : ∀ i ∈ cb ++ [.exit], Assembly.Writable i :=
    List.forall_mem_append.2 ⟨writable_of_body hb, List.forall_mem_singleton.2 ⟨_, rfl⟩⟩
  obtain ⟨blocks', hblocks', hbytes⟩ := Assembly.mapM_lines hwritable
  cases hblocks.symm.trans hblocks'
  rw [hg, List.nil_append, List.flatMap_append, hbytes, listing, Assembly.textBytes_append,
    Assembly.textBytes_map]

theorem compile_of_parse {source : List Char} {p : Program} (h : Program.parse source = .ok p)
    (sink : Sink) :
    compile source sink = ((p.generate sink).1, (p.generate sink).2.map .generate) := by
  -- With the name of a variable for `generate`, the kernel does not run it.
  obtain ⟨f, hf⟩ : ∃ f, f = Program.generate := ⟨_, rfl⟩
  delta compile
  rw [h, ← hf]

theorem compile_listing {source : List Char} {p : Program} {code : List Instr}
    (hp : Program.parse source = .ok p) (h : p.lower = .ok code) :
    compile source {} = ({ content := listing code }, none) := by
  rw [compile_of_parse hp, Program.generate_listing h]
  rfl

end Reckon
