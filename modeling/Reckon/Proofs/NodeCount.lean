import Reckon.Proofs.Words

namespace Reckon

namespace Expr

def size : Expr → Nat
  | .apply _ [e] => e.size + 1
  | .apply _ [l, r] => l.size + r.size + 1
  | _ => 1

def operandSizes : Expr → List Nat
  | .apply _ [e] => e.size :: e.operandSizes
  | .apply _ [l, r] => l.operandSizes ++ r.size :: r.operandSizes
  | _ => [0]

/-- The node at a place of the text has a last operand of some size. -/
def Measures (e : Expr) (i n : Nat) : Prop := e.operandSizes[i]? = some n

theorem Measures.prefixed {e : Expr} {i n : Nat} (h : e.Measures i n) (op : Operator) :
    (Expr.apply op [e]).Measures (i + 1) n := h

theorem Measures.left {e : Expr} {i n : Nat} (h : e.Measures i n) (op : Operator) (r : Expr) :
    (Expr.apply op [e, r]).Measures i n := by
  obtain ⟨hi, -⟩ := List.getElem?_eq_some_iff.1 h
  exact (List.getElem?_append_left hi).trans h

theorem Measures.right {e : Expr} {i n : Nat} (h : e.Measures i n) (op : Operator) (l : Expr) :
    (Expr.apply op [l, e]).Measures (l.operandSizes.length + (i + 1)) n := by
  rw [Measures, operandSizes, List.getElem?_append_right (Nat.le_add_right _ _),
    Nat.add_sub_cancel_left]
  exact h

theorem measures_prefixed (op : Operator) (e : Expr) : (Expr.apply op [e]).Measures 0 e.size := rfl

theorem measures_last (op : Operator) (l e : Expr) :
    (Expr.apply op [l, e]).Measures l.operandSizes.length e.size := by
  rw [Measures, operandSizes, List.getElem?_append_right (Nat.le_refl _), Nat.sub_self]
  rfl

/-- A context of a tree keeps what its nodes measure, at other places. -/
def Carries (g : Expr → Expr) : Prop :=
  ∀ i, ∃ j, ∀ e n, e.Measures i n → (g e).Measures j n

theorem carries_id : Carries id := fun i => ⟨i, fun _ _ h => h⟩

theorem carries_prefixed (op : Operator) : Carries fun e => .apply op [e] :=
  fun _ => ⟨_, fun _ _ h => h.prefixed op⟩

theorem carries_left (op : Operator) (r : Expr) : Carries fun e => .apply op [e, r] :=
  fun _ => ⟨_, fun _ _ h => h.left op r⟩

theorem carries_right (op : Operator) (l : Expr) : Carries fun e => .apply op [l, e] :=
  fun _ => ⟨_, fun _ _ h => h.right op l⟩

end Expr

/-- Whether a lexeme makes a node of the tree: operands, names, operators, and the bracket of an
index. -/
def Lexeme.weight (l : Lexeme) : Nat :=
  if l.kind = .numeric ∨ l.kind = .string ∨ l.kind = .identifier ∨ l.kind = .keyword ∨
    l.kind = .operator ∨ l.isOpening '[' then 1 else 0

namespace Grammar

def weight : List Lexeme → Nat
  | [] => 0
  | l :: w => l.weight + weight w

theorem weight_cons (l : Lexeme) (w : List Lexeme) : weight (l :: w) = l.weight + weight w := rfl

theorem weight_append (v w : List Lexeme) : weight (v ++ w) = weight v + weight w := by
  induction v with
  | nil => exact (Nat.zero_add _).symm
  | cons l v ih => rw [List.cons_append, weight_cons, weight_cons, ih, Nat.add_assoc]

theorem weight_of_kind {l : Lexeme} {k : TokenKind} (hl : l.kind = k)
    (hk : k ∈ [.numeric, .string, .identifier, .keyword, .operator]) : l.weight = 1 := by
  simp only [List.mem_cons, List.not_mem_nil, or_false] at hk
  rw [Lexeme.weight, if_pos]
  rcases hk with rfl | rfl | rfl | rfl | rfl <;> simp [hl]

theorem weight_of_isBlank {l : Lexeme} (h : l.isBlank) : l.weight = 0 := by
  rcases Cursor.kind_of_isBlank h with h | h <;> simp [Lexeme.weight, Lexeme.isOpening, h]

theorem weight_blanks {u : List Lexeme} (h : Blanks u) : weight u = 0 := by
  induction u with
  | nil => rfl
  | cons l u ih =>
    obtain ⟨hl, hu⟩ := List.forall_mem_cons.1 h
    rw [weight_cons, weight_of_isBlank hl, ih hu]

theorem weight_of_isOpening {l : Lexeme} {a : Char} (h : l.isOpening a) (ha : a ≠ '[') :
    l.weight = 0 := by
  have hindex : ¬ l.isOpening '[' := fun h' => ha (Cursor.isOpening_unique h h')
  simp [Lexeme.weight, Cursor.kind_of_isOpening h, hindex]

theorem weight_of_index {l : Lexeme} (h : l.isOpening '[') : l.weight = 1 := by
  simp [Lexeme.weight, h]

def Weighs : Part → List Lexeme → Expr → List Lexeme → Prop
  | .chain _ left, v, e, w => e.size + weight w = weight v + left.size
  | .delimited _, v, e, w => e.size + weight w = weight v.tail
  | _, v, e, w => e.size + weight w = weight v

theorem weighs_ofTier {t : Option Tier} {v w : List Lexeme} {e : Expr}
    (h : Weighs (.ofTier t) v e w) : e.size + weight w = weight v := by
  cases t with
  | none => exact h
  | some t => exact h

theorem Parses.weighs {p : Part} {v w : List Lexeme} {e : Expr} (h : Parses p v e w) :
    Weighs p v e w := by
  have atom {l : Lexeme} {w : List Lexeme} {e : Expr} (hl : l.weight = 1) (he : e.size = 1) :
      e.size + weight w = weight (l :: w) := by
    rw [weight_cons, hl, he]
  induction h with
  | tier _ _ ihl ihc =>
    have hleft := weighs_ofTier ihl
    simp only [Weighs] at ihc ⊢
    omega
  | stop => exact Nat.add_comm _ _
  | @more t l v w x k left right all hk hb ht _ _ ihr iha =>
    have hright := weighs_ofTier ihr
    have hsize : (Expr.binary k left right).size = left.size + right.size + 1 := rfl
    have hl := weight_of_kind hk (by decide)
    simp only [Weighs, hsize, weight_cons] at iha ⊢
    omega
  | numeral hk => exact atom (weight_of_kind hk (by decide)) rfl
  | string hk => exact atom (weight_of_kind hk (by decide)) rfl
  | constant hk => exact atom (weight_of_kind hk (by decide)) rfl
  | name hk => exact atom (weight_of_kind hk (by decide)) rfl
  | @sign l v w k e hk _ _ ih =>
    have hsize : (Expr.unary k e).size = e.size + 1 := rfl
    have hl := weight_of_kind hk (by decide)
    simp only [Weighs, hsize, weight_cons] at ih ⊢
    omega
  | group ho _ ih =>
    have hl := weight_of_isOpening ho (by decide)
    simp only [Weighs, weight_cons, List.tail_cons] at ih ⊢
    omega
  | @assignment l m v w e hk ho _ ih =>
    have hsize : (Expr.binary .assignment (.symbol l.raw.toString) e).size = 1 + e.size + 1 := rfl
    have hl := weight_of_kind hk (by decide)
    have hm := weight_of_kind (is_of_isOperator ho).1 (by decide)
    simp only [Weighs, hsize, weight_cons] at ih ⊢
    omega
  | @call l m v w e hk ho _ ih =>
    have hsize : (Expr.call l.raw.toString e).size = e.size + 1 := rfl
    have hl := weight_of_kind hk (by decide)
    have hm := weight_of_isOpening ho (by decide)
    simp only [Weighs, hsize, weight_cons, List.tail_cons] at ih ⊢
    omega
  | @index l m v w e hk ho _ ih =>
    have hsize : (Expr.binary .index (.symbol l.raw.toString) e).size = 1 + e.size + 1 := rfl
    have hl := weight_of_kind hk (by decide)
    have hm := weight_of_index ho
    simp only [Weighs, hsize, weight_cons, List.tail_cons] at ih ⊢
    omega
  | @command l m x v w word e hk _ _ ho _ _ ih =>
    have hsize : (Expr.call word e).size = e.size + 1 := rfl
    have hl := weight_of_kind hk (by decide)
    have hm := weight_of_isOpening ho (by decide)
    simp only [Weighs, hsize, weight_cons, List.tail_cons] at ih ⊢
    omega
  | @block l m x v w y word e f hk _ _ ho _ hb _ ih ih' =>
    have hsize : (Expr.define word e f).size = e.size + f.size + 1 := rfl
    have hl := weight_of_kind hk (by decide)
    have hm := weight_of_isOpening ho (by decide)
    have hx := weight_of_isOpening hb (by decide)
    simp only [Weighs, hsize, weight_cons, List.tail_cons] at ih ih' ⊢
    omega
  | blank hb _ ih =>
    have hl := weight_of_isBlank hb
    simp only [Weighs, weight_cons] at ih ⊢
    omega
  | @delimited b l m y u v w x e hu _ _ hw hy ih =>
    have hclose : y.weight = 0 := by
      rw [hy]
      rfl
    simp only [Weighs, weight_cons, weight_append, weight_blanks hu, weight_blanks hw, hclose,
      List.tail_cons, List.cons_append] at ih ⊢
    omega

end Grammar

end Reckon
