import KeyServer.SortedSet
import Mathlib.Data.List.Basic

/-! # The order of members

`Member.before` compares scores and then names.  Among members whose scores are numbers
and whose names differ it is a linear order: it is transitive (`pairBefore_trans`), never
holds of a pair and itself (`pairBefore_irrefl`), and holds one way or the other
(`pairBefore_total`).

So the members of a set can be listed in one order only (`eq_of_perm_of_sorted`), and what
is before a pair is a beginning of that list (`countP_between`).
-/

namespace KeyServer

namespace Member

variable {x y z : Double} {a b c : Bytes}

theorem pairBefore_iff :
    pairBefore x a y b = true ↔
      x.isNaN = false ∧ y.isNaN = false ∧ (x.key < y.key ∨ x.key = y.key ∧ a < b) := by
  unfold pairBefore Double.equals Double.less
  cases hx : x.isNaN with
  | true => simp
  | false =>
    cases hy : y.isNaN with
    | true => simp
    | false =>
      by_cases heq : x.key = y.key
      · simp [heq]
      · simp [heq]

theorem pairBefore_trans (h : pairBefore x a y b = true) (h' : pairBefore y b z c = true) :
    pairBefore x a z c = true := by
  obtain ⟨hx, -, hlt⟩ := pairBefore_iff.mp h
  obtain ⟨-, hz, hlt'⟩ := pairBefore_iff.mp h'
  refine pairBefore_iff.mpr ⟨hx, hz, ?_⟩
  rcases hlt with hlt | ⟨heq, hlt⟩ <;> rcases hlt' with hlt' | ⟨heq', hlt'⟩
  · exact .inl (by omega)
  · exact .inl (by omega)
  · exact .inl (by omega)
  · exact .inr ⟨heq.trans heq', List.lt_trans hlt hlt'⟩

theorem pairBefore_irrefl (x : Double) (a : Bytes) : pairBefore x a x a = false := by
  rw [Bool.eq_false_iff]
  intro h
  obtain ⟨-, -, hlt | ⟨-, hlt⟩⟩ := pairBefore_iff.mp h
  · exact absurd hlt (by omega)
  · exact List.lt_irrefl a hlt

theorem pairBefore_total (hx : x.isNaN = false) (hy : y.isNaN = false) (hne : a ≠ b) :
    pairBefore x a y b = true ∨ pairBefore y b x a = true := by
  rw [pairBefore_iff, pairBefore_iff]
  rcases Int.lt_trichotomy x.key y.key with hlt | heq | hlt
  · exact .inl ⟨hx, hy, .inl hlt⟩
  · by_cases hab : a < b
    · exact .inl ⟨hx, hy, .inr ⟨heq, hab⟩⟩
    · by_cases hba : b < a
      · exact .inr ⟨hy, hx, .inr ⟨heq.symm, hba⟩⟩
      · exact absurd (List.le_antisymm (List.not_lt.mp hba) (List.not_lt.mp hab)) hne
  · exact .inr ⟨hy, hx, .inl hlt⟩

theorem before_trans (m n o : Member) : m.before n → n.before o → m.before o :=
  fun h h' => pairBefore_trans h h'

theorem before_asymm {m n : Member} (h : m.before n = true) : n.before m = false := by
  rw [Bool.eq_false_iff]
  intro h'
  have := before_trans _ _ _ h h'
  rw [before, pairBefore_irrefl] at this
  cases this

end Member

namespace SortedSet

/-- There is only one order to list members in. -/
theorem eq_of_perm_of_sorted {l l' : List Member} (h : l.Perm l')
    (hl : l.Pairwise fun a b => a.before b) (hl' : l'.Pairwise fun a b => a.before b) : l = l' := by
  refine List.Perm.eq_of_pairwise ?_ hl hl' h
  intro m n _ _ hmn hnm
  rw [Member.before_asymm hmn] at hnm
  cases hnm

variable {α : Type}

/-- A beginning that does not have the first element of a list has none of it. -/
theorem countP_tail_eq_zero {a : α} {l : List α} {p : α → Bool}
    (hp : (a :: l).Pairwise fun a b => p b = true → p a = true) (ha : p a = false) :
    l.countP p = 0 := by
  rw [List.countP_eq_zero]
  intro b hb hpb
  rw [(List.pairwise_cons.mp hp).1 b hb hpb] at ha
  cases ha

/-- Counting what is in one beginning of a list but not in another. -/
theorem countP_between {l : List α} {p q : α → Bool}
    (hp : l.Pairwise fun a b => p b = true → p a = true)
    (hq : l.Pairwise fun a b => q b = true → q a = true) :
    l.countP (fun a => !p a && q a) = l.countP q - l.countP p := by
  induction l with
  | nil => rfl
  | cons a l ih =>
    have ih := ih (List.pairwise_cons.mp hp).2 (List.pairwise_cons.mp hq).2
    cases hpa : p a with
    | true =>
      cases hqa : q a with
      | true =>
        simp only [List.countP_cons, hpa, hqa]
        simp only [Bool.not_true, Bool.false_and, if_true]
        rw [ih]
        simp
      | false =>
        -- Nothing from here on is in the second beginning.
        have hnone : l.countP q = 0 := countP_tail_eq_zero hq hqa
        rw [hnone] at ih
        simp [hpa, hqa, ih, hnone]
    | false =>
      have hzero : (a :: l).countP p = 0 := by
        rw [List.countP_cons, countP_tail_eq_zero hp hpa, hpa]
        simp
      rw [hzero, Nat.sub_zero]
      refine List.countP_congr fun b hb => ?_
      simp [List.countP_eq_zero.mp hzero b hb]

end SortedSet

end KeyServer
