import Hibari.RoomArchive

/-!
# Reactions of a message

What the server keeps of the reactions to a message (`reaction.go`, `reactions.sql`): one row for
each user and emoji, in the order in which they were put on. Nothing is counted ahead. Who put a
reaction on, and how many did, is read off the rows whenever the message is shown
(`listMessageReactions`), and a request changes something exactly where it adds or deletes a row
(`changesReaction`).
-/

namespace Hibari

open List

/-- The reactions to a message: who put which emoji on it, the first one first. -/
abbrev ReactionRows := List (Ulid × String)

instance : LawfulBEq (Ulid × String) := inferInstance

/-- The most users that a reaction names. -/
def maxReactionUsers : ℕ := 8

namespace ReactionRows

variable (rows : ReactionRows) (userId viewer : Ulid) (emoji : String)
  {add : Bool} {rows' : ReactionRows}

/-- The emojis on a message, in the order in which each was first put on. -/
def emojis : List String := (rows.map Prod.snd).reverse.dedup.reverse

/-- How many emojis are on the message (`CountMessageReactionKinds`). -/
def countKinds : ℕ := rows.emojis.length

/-- Whether the emoji may be put on: there is room for another one, or it is there already. -/
def checkReactionKinds : Bool :=
  decide (rows.countKinds < maxReactionKinds) || decide (emoji ∈ rows.map Prod.snd)

/-- Put a reaction on; one that is there already stays. -/
def addMessageReaction : ReactionRows :=
  if (userId, emoji) ∈ rows then rows else rows ++ [(userId, emoji)]

/-- Take a reaction off. -/
def removeMessageReaction : ReactionRows := rows.filter fun r => decide (r ≠ (userId, emoji))

/-- Whether the request adds or deletes a row. -/
def changesReaction (add : Bool) : Bool := decide ((userId, emoji) ∈ rows) != add

/-- The rows after a request to put a reaction on or take it off, if it is not refused
(`changeReaction`). -/
def changeReaction (add : Bool) : Option ReactionRows :=
  if add then
    if rows.checkReactionKinds emoji then some (rows.addMessageReaction userId emoji) else none
  else some (rows.removeMessageReaction userId emoji)

/-- The reaction with an emoji, as a user sees it. -/
def reaction : MessageReaction where
  emoji := emoji
  count := rows.countP fun r => decide (r.2 = emoji)
  me := some (decide ((viewer, emoji) ∈ rows))
  users := ((rows.filter fun r => decide (r.2 = emoji)).map Prod.fst).take maxReactionUsers

/-- The reactions to a message as a user sees them (`ListMessageReactions`): emoji by emoji, in the
order in which each was first put on. -/
def listMessageReactions : List MessageReaction := rows.emojis.map (rows.reaction viewer)

variable {rows userId viewer emoji}

theorem mem_emojis : emoji ∈ rows.emojis ↔ emoji ∈ rows.map Prod.snd := by
  unfold emojis
  rw [mem_reverse, mem_dedup, mem_reverse]

theorem nodup_emojis (rows : ReactionRows) : rows.emojis.Nodup :=
  nodup_reverse.mpr (nodup_dedup _)

theorem map_emoji_listMessageReactions (rows : ReactionRows) (viewer : Ulid) :
    (rows.listMessageReactions viewer).map MessageReaction.emoji = rows.emojis := by
  unfold listMessageReactions
  rw [map_map]
  exact map_id _

theorem me_of_mem_listMessageReactions {r : MessageReaction}
    (hr : r ∈ rows.listMessageReactions viewer) :
    r.me = some (decide ((viewer, r.emoji) ∈ rows)) := by
  obtain ⟨emoji, -, rfl⟩ := mem_map.mp hr
  rfl

variable (h : rows.changeReaction userId emoji add = some rows')
include h

/-- **After a request the reaction is on or off**, as was asked for. -/
theorem mem_of_changeReaction : (userId, emoji) ∈ rows' ↔ add = true := by
  unfold changeReaction addMessageReaction removeMessageReaction at h
  cases add with
  | false =>
    cases h
    simp
  | true =>
    refine iff_of_true ?_ rfl
    rw [if_pos rfl] at h
    split at h
    · cases h
      split
      · assumption
      · exact mem_append_right _ (.head _)
    · cases h

/-- **A request touches no other reaction.** -/
theorem mem_iff_of_changeReaction {r : Ulid × String}
    (hr : r ≠ (userId, emoji)) : r ∈ rows' ↔ r ∈ rows := by
  unfold changeReaction addMessageReaction removeMessageReaction at h
  cases add with
  | false =>
    cases h
    simp [hr]
  | true =>
    rw [if_pos rfl] at h
    split at h
    · cases h
      split
      · exact .rfl
      · simp [hr]
    · cases h

/-- **A request that changes nothing leaves the rows as they were.** -/
theorem eq_of_changeReaction
    (hno : rows.changesReaction userId emoji add = false) : rows' = rows := by
  have hmem : (userId, emoji) ∈ rows ↔ add = true := by
    have hdec : decide ((userId, emoji) ∈ rows) = add := by simpa [changesReaction] using hno
    rw [← hdec, decide_eq_true_eq]
  unfold changeReaction addMessageReaction removeMessageReaction at h
  cases add with
  | false =>
    cases h
    refine filter_eq_self.mpr fun r hr => decide_eq_true fun heq => ?_
    exact Bool.false_ne_true (hmem.mp (heq ▸ hr))
  | true =>
    rw [if_pos rfl, if_pos (hmem.mpr rfl)] at h
    split at h
    · exact (Option.some.inj h).symm
    · cases h

end ReactionRows

end Hibari
