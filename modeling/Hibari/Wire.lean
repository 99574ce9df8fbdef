import Mathlib

/-!
# Commands on a connection

A client writes commands on a connection and a server processes them in the
order they were written. When the connection is lost, what the server had not
processed is never processed, and the client goes on with a new connection.

The model keeps every command that was ever sent, numbered in that order, with
the number of the one that is processed next and the numbers of those that
were. Commands in flight are those from `next` on; losing the connection moves
`next` to the end.

What clients ask of a server by commands – a subscription, a lock, a watch – is
switched on by some commands and off by others. A command `Stands` when it
switches on and no later command switches off. The library follows such a
command from being sent to being processed (`Ahead`, `Served`): whatever
is processed behind a standing command tells the client that the standing one
was processed too (`Covered.served`).
-/

/-- **A connection**: the commands that were sent, the number of the command
that the server processes next, and the numbers of those it has processed. -/
structure Wire (κ : Type*) where
  sent : List κ
  next : ℕ
  processed : List ℕ

namespace Wire

open List

variable {κ : Type*} {w : Wire κ} {c : κ} {up down : κ → Prop} {p : ℕ}

/-- Nothing was sent yet. -/
def empty : Wire κ := ⟨[], 0, []⟩

/-- Send a command. -/
def send (w : Wire κ) (c : κ) : Wire κ := { w with sent := w.sent ++ [c] }

/-- Process the next command. -/
def process (w : Wire κ) : Wire κ :=
  { w with next := w.next + 1, processed := w.next :: w.processed }

/-- Lose what is in flight. -/
def lose (w : Wire κ) : Wire κ := { w with next := w.sent.length }

/-- Command `n` switches on, and none after it switches off. -/
def Stands (w : Wire κ) (up down : κ → Prop) (n : ℕ) : Prop :=
  (∃ c, w.sent[n]? = some c ∧ up c) ∧ ∀ m c, n < m → w.sent[m]? = some c → ¬ down c

/-- The server has processed a standing command. -/
def Served (w : Wire κ) (up down : κ → Prop) : Prop :=
  ∃ n ∈ w.processed, w.Stands up down n

/-- A standing command is in flight before place `p`. -/
def Ahead (w : Wire κ) (up down : κ → Prop) (p : ℕ) : Prop :=
  ∃ n, w.next ≤ n ∧ n < p ∧ w.Stands up down n

/-- Once the server comes to place `p`, it has processed a standing command. -/
def Covered (w : Wire κ) (up down : κ → Prop) (p : ℕ) : Prop :=
  w.Served up down ∨ w.Ahead up down p

/-- A command that was sent is at its place, the new one at the end. -/
theorem getElem?_send {n : ℕ} {d : κ} (h : (w.send c).sent[n]? = some d) :
    w.sent[n]? = some d ∨ n = w.sent.length ∧ d = c := by
  by_cases hn : n < w.sent.length
  · have hold : (w.sent ++ [c])[n]? = w.sent[n]? := getElem?_append_left hn
    exact .inl (hold.symm.trans h)
  · have hlen := (List.getElem?_eq_some_iff.mp h).1
    have hlast : n = w.sent.length := by
      simp only [send, length_append, length_singleton] at hlen
      omega
    have hnew : (w.sent ++ [c])[n]? = some c := by
      rw [hlast]
      exact getElem?_concat_length
    exact .inr ⟨hlast, Option.some.inj (h.symm.trans hnew)⟩

/-- A command stands until one is sent that switches off. -/
theorem Stands.send {n : ℕ} (h : w.Stands up down n) (hc : ¬ down c) :
    (w.send c).Stands up down n := by
  obtain ⟨⟨d, hd, hup⟩, hafter⟩ := h
  have hn := (List.getElem?_eq_some_iff.mp hd).1
  refine ⟨⟨d, (getElem?_append_left hn).trans hd, hup⟩, fun m e hm he => ?_⟩
  rcases getElem?_send he with hold | ⟨-, rfl⟩
  · exact hafter m e hm hold
  · exact hc

theorem Served.send (h : w.Served up down) (hc : ¬ down c) : (w.send c).Served up down := by
  obtain ⟨n, hn, hstands⟩ := h
  exact ⟨n, hn, hstands.send hc⟩

theorem Covered.send (h : w.Covered up down p) (hc : ¬ down c) : (w.send c).Covered up down p := by
  rcases h with hserved | ⟨n, hnext, hp, hstands⟩
  · exact .inl (hserved.send hc)
  · exact .inr ⟨n, hnext, hp, hstands.send hc⟩

/-- **A command that switches on** covers everything that is sent after it. -/
theorem covered_send (hup : up c) (hnext : w.next ≤ w.sent.length) :
    (w.send c).Covered up down (w.send c).sent.length := by
  refine .inr ⟨w.sent.length, hnext, ?_, ⟨c, getElem?_concat_length, hup⟩, ?_⟩
  · simp [Wire.send]
  · intro m d hm hd
    have hlen := (List.getElem?_eq_some_iff.mp hd).1
    simp only [Wire.send, length_append, length_singleton] at hlen
    omega

theorem Served.process (h : w.Served up down) : w.process.Served up down := by
  obtain ⟨n, hn, hstands⟩ := h
  exact ⟨n, .tail _ hn, hstands⟩

theorem Covered.served (h : w.Covered up down w.next) : w.Served up down := by
  rcases h with hserved | ⟨n, hnext, hp, -⟩
  · exact hserved
  · exact absurd hp (Nat.not_lt.mpr hnext)

theorem Covered.process (h : w.Covered up down p) : w.process.Covered up down p := by
  rcases h with hserved | ⟨n, hnext, hp, hstands⟩
  · exact .inl hserved.process
  · by_cases hn : n = w.next
    · exact .inl ⟨n, hn ▸ (.head _), hstands⟩
    · exact .inr ⟨n, Nat.lt_of_le_of_ne hnext (Ne.symm hn), hp, hstands⟩

theorem Served.lose (h : w.Served up down) : w.lose.Served up down := h

theorem Covered.mono {q : ℕ} (h : w.Covered up down p) (hpq : p ≤ q) : w.Covered up down q := by
  rcases h with hserved | ⟨n, hnext, hp, hstands⟩
  · exact .inl hserved
  · exact .inr ⟨n, hnext, hp.trans_le hpq, hstands⟩

end Wire
