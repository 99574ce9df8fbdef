import Mathlib

/-!
# Channels in order

Parties send to each other. What one has sent to another and has not come yet is kept in one list of
all that is on its way, and of what goes between two parties the oldest comes first – nothing is
said about what goes between others. A receiver that goes away gets nothing of what was on its way
to it.

The module has what each of sending, receiving and going away does to what is between two parties
(`between`), which is all that a proof about such a network has to know.
-/

/-- **What one party has sent to another**, and has not come yet. -/
structure Sent (ι μ : Type*) where
  sender : ι
  receiver : ι
  data : μ
  deriving DecidableEq

namespace Sent

open List Option

variable {ι μ : Type*} [DecidableEq ι] {e : Sent ι μ}

/-- From one to another. -/
def isBetween (a b : ι) (e : Sent ι μ) : Bool := e.sender = a && e.receiver = b

/-- What is on its way from one to another, the oldest first. -/
def between (net : List (Sent ι μ)) (a b : ι) : List μ := (net.filter (isBetween a b)).map data

/-- One sends to several. -/
def send (net : List (Sent ι μ)) (a : ι) (receivers : List ι) (m : μ) : List (Sent ι μ) :=
  net ++ receivers.map fun b => ⟨a, b, m⟩

/-- The oldest that goes from one to another comes. -/
def receive (net : List (Sent ι μ)) (a b : ι) : Option (μ × List (Sent ι μ)) :=
  (net.find? (isBetween a b)).map fun e => (e.data, net.eraseP (isBetween a b))

/-- A receiver goes away. -/
def withoutReceiver (net : List (Sent ι μ)) (b : ι) : List (Sent ι μ) :=
  net.filter fun e => e.receiver ≠ b

variable {net net' : List (Sent ι μ)} {a a' b b' : ι} {receivers : List ι} {m : μ}

theorem isBetween_iff : isBetween a b e = true ↔ e.sender = a ∧ e.receiver = b := by
  unfold isBetween
  rw [Bool.and_eq_true, decide_eq_true_iff, decide_eq_true_iff]

theorem mem_between : m ∈ between net a b ↔ ⟨a, b, m⟩ ∈ net := by
  constructor
  · intro h
    obtain ⟨e, he, rfl⟩ := List.mem_map.mp h
    obtain ⟨hmem, hbetween⟩ := mem_filter.mp he
    obtain ⟨rfl, rfl⟩ := isBetween_iff.mp hbetween
    exact hmem
  · intro h
    exact List.mem_map.mpr ⟨_, mem_filter.mpr ⟨h, isBetween_iff.mpr ⟨rfl, rfl⟩⟩, rfl⟩

/-! ## Sending -/

theorem between_append : between (net ++ net') a b = between net a b ++ between net' a b := by
  unfold between
  rw [filter_append, map_append]

/-- A message to each of several, between two. -/
theorem between_map : between (receivers.map fun b => (⟨a, b, m⟩ : Sent ι μ)) a' b =
    if a' = a then (receivers.filter (· = b)).map fun _ => m else [] := by
  induction receivers with
  | nil =>
    show [] = if a' = a then [] else []
    rw [ite_self]
  | cons c receivers ih =>
    have hcons : between ((c :: receivers).map fun b => (⟨a, b, m⟩ : Sent ι μ)) a' b =
        between [⟨a, c, m⟩] a' b ++ between (receivers.map fun b =>
          (⟨a, b, m⟩ : Sent ι μ)) a' b := by
      rw [map_cons, ← singleton_append, between_append]
    rw [hcons, ih]
    by_cases ha : a' = a
    · by_cases hc : c = b
      · simp [between, isBetween, ha, hc]
      · simp [between, isBetween, ha, hc]
    · simp [between, isBetween, ha, Ne.symm ha]

/-- Sending to several adds to what is between, of the sender and each of them. -/
theorem between_send_self (hnodup : receivers.Nodup) (hb : b ∈ receivers) :
    between (send net a receivers m) a b = between net a b ++ [m] := by
  have hone : receivers.filter (· = b) = [b] := by
    rw [filter_eq, count_eq_one_of_mem hnodup hb]
    rfl
  unfold send
  rw [between_append, between_map, if_pos rfl, hone]
  rfl

theorem between_send_of_sender_ne (h : a' ≠ a) : between
    (send net a receivers m) a' b = between net a' b := by
  unfold send
  rw [between_append, between_map, if_neg h, append_nil]

/-! ## Receiving -/

variable (h : receive net a b = some (m, net'))
include h

/-- What comes is the oldest. -/
theorem between_receive : between net a b = m :: between net' a b := by
  induction net generalizing net' with
  | nil => cases h
  | cons e _ ih =>
    obtain ⟨x, hfind, hx⟩ := map_eq_some_iff.mp h
    cases hx
    by_cases he : isBetween a b e = true
    · rw [find?_cons_of_pos he] at hfind
      cases hfind
      unfold between
      rw [eraseP_cons_of_pos he, filter_cons_of_pos he, map_cons]
    · rw [find?_cons_of_neg he] at hfind
      have hrest := ih (map_eq_some_iff.mpr ⟨x, hfind, rfl⟩)
      unfold between at hrest ⊢
      rw [eraseP_cons_of_neg he, filter_cons_of_neg he, filter_cons_of_neg he]
      exact hrest

/-- What goes between others stays. -/
theorem between_receive_of_ne (hne : ¬(a' = a ∧ b' = b)) :
    between net' a' b' = between net a' b' := by
  obtain ⟨x, -, hx⟩ := map_eq_some_iff.mp h
  obtain ⟨-, rfl⟩ := Prod.mk.inj hx
  unfold between
  refine congrArg (List.map data) ?_
  clear h hx
  induction net with
  | nil => rfl
  | cons e _ ih =>
    by_cases he : isBetween a b e = true
    · have hother : ¬isBetween a' b' e = true := fun he' => hne
        ⟨(isBetween_iff.mp he').1.symm.trans (isBetween_iff.mp he).1,
          (isBetween_iff.mp he').2.symm.trans (isBetween_iff.mp he).2⟩
      rw [eraseP_cons_of_pos he, filter_cons_of_neg hother]
    · rw [eraseP_cons_of_neg he]
      by_cases he' : isBetween a' b' e = true
      · rw [filter_cons_of_pos he', filter_cons_of_pos he', ih]
      · rw [filter_cons_of_neg he', filter_cons_of_neg he', ih]

/-- Nothing new is on its way. -/
theorem mem_of_mem_receive (he : e ∈ net') : e ∈ net := by
  obtain ⟨x, -, hx⟩ := map_eq_some_iff.mp h
  cases hx
  exact mem_of_mem_eraseP he

/-- What comes was on its way. -/
theorem mem_of_receive : ⟨a, b, m⟩ ∈ net :=
  mem_between.mp (between_receive h ▸ (.head _))

/-! ## Going away -/

omit h

theorem between_withoutReceiver_of_ne (h : b' ≠ b) :
    between (withoutReceiver net b) a b' = between net a b' := by
  unfold between withoutReceiver
  rw [List.filter_filter]
  refine congrArg (List.map data) (filter_congr fun e _ => ?_)
  by_cases he : isBetween a b' e = true
  · rw [he, Bool.true_and, decide_eq_true_iff, (isBetween_iff.mp he).2]
    exact h
  · rw [Bool.eq_false_of_not_eq_true he, Bool.false_and]

theorem mem_withoutReceiver : e ∈ withoutReceiver net b ↔ e ∈ net ∧ e.receiver ≠ b := by
  unfold withoutReceiver
  rw [mem_filter, decide_eq_true_iff]

end Sent
