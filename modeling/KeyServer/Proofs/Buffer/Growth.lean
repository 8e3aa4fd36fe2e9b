import KeyServer.Proofs.Buffer.Refinement
import KeyServer.Proofs.Response.Writing

/-! # Buffers that grow

A buffer is `Reachable` if calls have led to it from a new one, none of which read more than was
there or past a pending slot.  Its cursors, its capacity and its pending slots may be anything.
It has `Grown` by some bytes when they stand behind those that were unread, and the slots that
were pending still mark the same places.

* **`Reachable.exists_reads`**: a reachable buffer shows some byte string with marks.
* **`Appends.grown`**: what appends bytes to every buffer makes every reachable one grow by them.
-/

namespace KeyServer.Buffer

/-- The buffers that allowed calls lead to. -/
inductive Reachable : Buffer → Prop where
  | withCapacity (capacity : Nat) : Reachable (withCapacity capacity)
  | call {q q' : Buffer} (c : Call) (hq : Reachable q) (hc : q.Allows c)
      (happly : c.apply q = .ok q') : Reachable q'

theorem Reachable.exists_reads {q : Buffer} (h : q.Reachable) : ∃ m, q.Reads m := by
  induction h with
  | withCapacity capacity => exact ⟨_, reads_withCapacity capacity⟩
  | call c _ hc happly ih =>
    obtain ⟨m, hm⟩ := ih
    obtain ⟨answer, q', m', hcall, -, h'⟩ := Reads.simulates_call _ m c hm hc
    rw [Buffer.call, happly] at hcall
    cases hcall
    exact ⟨m', h'⟩

/-- Some bytes stand behind those that were unread, which are unchanged, and the same places
are marked. -/
def Grown (q : Buffer) (bytes : Bytes) (q' : Buffer) : Prop :=
  ∃ data marks tail tail', q.Shows ⟨data, marks, tail⟩ ∧ q'.Shows ⟨data ++ bytes, marks, tail'⟩

theorem Holds.shows {q : Buffer} {data : Bytes} {marks : List Nat} (h : q.Holds data marks) :
    q.Shows ⟨data, marks, q.tail⟩ :=
  Reads.shows ⟨h, rfl⟩

/-- **Appending** makes a reachable buffer grow. -/
theorem Appends.grown {write : Buffer → Except Fault Buffer} {bytes : Bytes}
    (hwrite : Appends write bytes) {q : Buffer} (hq : q.Reachable) :
    ∃ q', write q = .ok q' ∧ q.Grown bytes q' := by
  obtain ⟨m, hm⟩ := hq.exists_reads
  obtain ⟨q', hrun, h'⟩ := hwrite hm.holds
  exact ⟨q', hrun, _, _, _, _, hm.holds.shows, h'.shows⟩

end KeyServer.Buffer
