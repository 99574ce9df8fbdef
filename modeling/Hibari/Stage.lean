import Mathlib.Data.List.Sort
import Mathlib.Data.List.Perm.Subperm
import Mathlib.Tactic.Common

/-!
# The stage of a huddle

The window of a huddle shows the cameras of some of those who are in it: the stage. `chooseStage`
(`huddle/stage.ts`) puts the pinned one there, then who spoke last, then who came first, and
carries a memory from one choice to the next, so that the order of speaking does not exchange
people all the time.

A choice that differs from the last one is made for one of three reasons: somebody is forced on or
off the stage, a place is free, or the last exchange is `STAGE_HOLD_MS` ago. All three replace the
whole stage, and only the last one starts the hold anew. So whoever has spoken meanwhile drops
others, who still have their cameras on, each time a place is lost or free
(`exchanged_twice`). Where such a choice leaves on the stage who is on it
(`Keeps`), a stage is calm: `stage_fair_and_calm`.
-/

namespace Hibari

open List Option

variable {U : Type} [DecidableEq U]

/-- Somebody else who is in the huddle. -/
structure StageParticipant (U : Type) where
  userId : U
  camera : Bool
  screen : Bool
  deriving DecidableEq

/-- What is made large: somebody's camera, or somebody's screen (`screen:<user id>`). -/
inductive PinnedId (U : Type)
  | person (userId : U)
  | screen (userId : U)
  deriving DecidableEq

structure StageInput (U : Type) where
  selfCamera : Bool
  /-- In the order in which they came. -/
  others : List (StageParticipant U)
  pinnedId : Option (PinnedId U)
  speaking : List U
  visible : Bool
  mobile : Bool
  now : ℤ

inductive HuddleQuality
  | high
  | medium
  | low
  deriving DecidableEq

/-- One picture that is received. -/
inductive StageTrack (U : Type)
  | camera (userId : U) (quality : HuddleQuality)
  | screen (userId : U)
  deriving DecidableEq

/-- What is carried from one choice to the next. There is no time before the first one
(`-Infinity`). -/
structure StageMemory (U : Type) where
  cameras : List U
  spokeAt : U → Option ℤ
  changedAt : Option ℤ

def EMPTY_STAGE : StageMemory U := ⟨[], fun _ => none, none⟩

/-- `STAGE_SIZE`. -/
def stageSize (mobile sharing : Bool) : ℕ := if mobile then 4 else if sharing then 4 else 9

def STAGE_HOLD_MS : ℤ := 5000

namespace StageInput

variable (input : StageInput U) (memory : StageMemory U)

def spokeAt (u : U) : Option ℤ := if u ∈ input.speaking then some input.now else memory.spokeAt u

def screens : List U := (input.others.filter (·.screen)).map (·.userId)

def sharing : Bool :=
  !input.screens.isEmpty || input.pinnedId.any fun
    | .screen _ => true
    | .person _ => false

def slots : ℕ := stageSize input.mobile input.sharing - if input.selfCamera then 1 else 0

def withCamera : List U := (input.others.filter (·.camera)).map (·.userId)

def pinned : Option U := input.withCamera.find? fun u => input.pinnedId = some (.person u)

/-- The order on the stage: pinned, then who spoke last, then who came first. Two who never spoke
differ by `NaN`, which sorts as they came. -/
def ranks (a b : U) : Bool :=
  if some a = input.pinned then true
  else if some b = input.pinned then false
  else match input.spokeAt memory a, input.spokeAt memory b with
    | some s, some t => t < s || s = t && input.withCamera.idxOf a ≤ input.withCamera.idxOf b
    | none, some _ => false
    | _, none => true

def ranked : List U := input.withCamera.insertionSort fun a b => input.ranks memory a b

def desired : List U := (input.ranked memory).take input.slots

/-- Who was on the stage and still has the camera on. -/
def kept : List U := memory.cameras.filter (· ∈ input.withCamera)

def forced : Bool :=
  input.pinned.any (· ∉ input.kept memory) ||
    decide (input.slots < (input.kept memory).length) ||
    decide (memory.cameras.length ≠ (input.kept memory).length)

/-- A place on the stage is free. -/
def free : Bool := (input.kept memory).length < min input.slots input.withCamera.length

/-- The last exchange is long enough ago. -/
def elapsed : Bool := memory.changedAt.all fun t => STAGE_HOLD_MS ≤ input.now - t

/-- `cameraQuality`. -/
def quality (u : U) : HuddleQuality :=
  if input.pinned = some u then .high
  else if input.pinned.isSome || input.sharing then .low
  else if input.others.length + 1 ≤ 2 then .high
  else if input.others.length + 1 ≤ 4 then .medium
  else .low

end StageInput

open StageInput

def sameSet (a b : List U) : Bool := a.length = b.length && a.all (· ∈ b)

/-- **What is received**, and the memory for the next choice. -/
def chooseStage (input : StageInput U) (memory : StageMemory U) :
    List (StageTrack U) × StageMemory U :=
  let spokeAt := input.spokeAt memory
  if !input.visible then ([], { memory with cameras := [], spokeAt := spokeAt })
  else
    let desired := input.desired memory
    let kept := input.kept memory
    let (cameras, changedAt) :=
      if sameSet desired kept then (kept, memory.changedAt)
      else if input.forced memory || input.elapsed memory || input.free memory then
        (desired, if !input.forced memory && !input.free memory then some input.now
          else memory.changedAt)
      else (kept, memory.changedAt)
    (cameras.map (fun u => .camera u (input.quality u)) ++ input.screens.map .screen,
      ⟨cameras, spokeAt, changedAt⟩)

/-- The memory after choices in turn. -/
def stageMemory (inputs : List (StageInput U)) : StageMemory U :=
  inputs.foldl (fun memory input => (chooseStage input memory).2) EMPTY_STAGE

/-! ## What is asked of a stage -/

/-- Inputs as they come: nobody is in the huddle twice, and time does not go back. -/
structure StageRun (inputs : List (StageInput U)) : Prop where
  once : ∀ input ∈ inputs, (input.others.map (·.userId)).Nodup
  later : inputs.Pairwise fun i j => i.now ≤ j.now

/-- **A fair choice**: as many cameras as there are places and others with the camera on, each
once, the pinned one among them, and every screen. -/
structure FairStage (input : StageInput U) (memory : StageMemory U) : Prop where
  nodup : (chooseStage input memory).2.cameras.Nodup
  withCamera : ∀ u ∈ (chooseStage input memory).2.cameras, u ∈ input.withCamera
  length : (chooseStage input memory).2.cameras.length =
    if input.visible then min input.slots input.withCamera.length else 0
  pinned : input.visible → ∀ u, input.pinned = some u → u ∈ (chooseStage input memory).2.cameras
  tracks : (chooseStage input memory).1 =
    (chooseStage input memory).2.cameras.map (fun u => .camera u (input.quality u)) ++
      if input.visible then input.screens.map .screen else []

/-- **Somebody is dropped** by a choice: although still having the camera on, with no fewer places
and the same pin as at the choice before. -/
def Drops (previous input : StageInput U) (memory : StageMemory U) : Prop :=
  input.visible ∧ previous.slots ≤ input.slots ∧ previous.pinnedId = input.pinnedId ∧
    ∃ u ∈ memory.cameras, u ∈ input.withCamera ∧ u ∉ (chooseStage input memory).2.cameras

/-- **A choice that does not wait keeps who is there**: where somebody is forced on or off the
stage, or a place is free, everybody who is left on it is among the first. -/
def Keeps (previous input : StageInput U) (memory : StageMemory U) : Prop :=
  previous.slots ≤ input.slots → previous.pinnedId = input.pinnedId →
    input.forced memory || input.free memory →
    ∀ u ∈ input.kept memory, u ∈ input.desired memory

/-- A choice in a run, the one before it, and the memory that it gets. -/
structure ChoiceAt (inputs : List (StageInput U)) (n : ℕ) (previous input : StageInput U) : Prop where
  previous : inputs[n]? = some previous
  input : inputs[n + 1]? = some input

/-- **A calm run**: two choices that drop somebody are `STAGE_HOLD_MS` apart. -/
def CalmStage (inputs : List (StageInput U)) : Prop :=
  ∀ m n previous₁ input₁ previous₂ input₂, m < n →
    ChoiceAt inputs m previous₁ input₁ → ChoiceAt inputs n previous₂ input₂ →
    Drops previous₁ input₁ (stageMemory (inputs.take (m + 1))) →
    Drops previous₂ input₂ (stageMemory (inputs.take (n + 1))) →
    input₁.now + STAGE_HOLD_MS ≤ input₂.now

/-! ## One choice -/

/-- What comes before all others under an order that sorts a list is its first. -/
theorem head?_insertionSort {α : Type} {r : α → α → Prop} [DecidableRel r] {p : α}
    (hfirst : ∀ b, r p b) (honly : ∀ a, r a p → a = p) :
    ∀ l : List α, p ∈ l → (l.insertionSort r).head? = some p
  | [], h => absurd h not_mem_nil
  | a :: l, h => by
    rw [insertionSort_cons]
    by_cases ha : a = p
    · subst ha
      cases hl : l.insertionSort r with
      | nil => rfl
      | cons b t => rw [orderedInsert_cons, if_pos (hfirst b)]; rfl
    · have hmem := (mem_cons.mp h).resolve_left fun heq => ha heq.symm
      obtain ⟨t, ht⟩ := head?_eq_some_iff.mp (head?_insertionSort hfirst honly l hmem)
      rw [ht, orderedInsert_cons, if_neg fun hr => ha (honly a hr)]
      rfl

theorem sameSet_iff {a b : List U} : sameSet a b = true ↔ a.length = b.length ∧ ∀ u ∈ a, u ∈ b := by
  simp [sameSet]

namespace StageInput

variable {input : StageInput U} {memory : StageMemory U} {u : U}

omit [DecidableEq U] in
theorem slots_pos : 0 < input.slots := by
  unfold slots stageSize
  split_ifs <;> decide

theorem mem_kept : u ∈ input.kept memory ↔ u ∈ memory.cameras ∧ u ∈ input.withCamera := by
  simp [kept]

theorem desired_length : (input.desired memory).length = min input.slots input.withCamera.length := by
  rw [desired, length_take, ranked, length_insertionSort]

theorem withCamera_of_desired (h : u ∈ input.desired memory) : u ∈ input.withCamera :=
  (mem_insertionSort _).mp (mem_of_mem_take h)

variable (h : (input.others.map (·.userId)).Nodup)
include h

omit [DecidableEq U] in
theorem nodup_withCamera : input.withCamera.Nodup :=
  h.sublist (filter_sublist.map _)

theorem nodup_desired : (input.desired memory).Nodup :=
  ((perm_insertionSort _ _).nodup_iff.mpr (nodup_withCamera h)).sublist (take_sublist _ _)

omit h

/-- The pinned one comes first, and there is a place. -/
theorem pinned_mem_desired (h : input.pinned = some u) : u ∈ input.desired memory := by
  have hmem : u ∈ input.withCamera := mem_of_find?_eq_some h
  have hhead := head?_insertionSort (r := fun a b => input.ranks memory a b = true) (p := u)
    (fun b => if_pos h.symm) (fun a ha => ?_) input.withCamera hmem
  · obtain ⟨t, ht⟩ := head?_eq_some_iff.mp hhead
    show u ∈ (input.withCamera.insertionSort _).take input.slots
    rw [ht, ← Nat.succ_pred_eq_of_pos input.slots_pos]
    exact .head _
  · by_contra hne
    unfold ranks at ha
    rw [if_neg fun heq => hne (some.inj (heq.trans h)), if_pos h.symm] at ha
    exact Bool.false_ne_true ha

/-- **What a choice is**: nothing where nothing is seen; otherwise it keeps the stage, or takes
those that come first, which starts the hold if it has waited for it. -/
theorem cameras_cases (memory : StageMemory U) (hvisible : input.visible = true) :
    ((chooseStage input memory).2.cameras = input.kept memory ∧
      (chooseStage input memory).2.changedAt = memory.changedAt ∧
      (sameSet (input.desired memory) (input.kept memory) ∨
        (input.forced memory = false ∧ input.free memory = false))) ∨
    ((chooseStage input memory).2.cameras = input.desired memory ∧
      (((input.forced memory || input.free memory) = true ∧
          (chooseStage input memory).2.changedAt = memory.changedAt) ∨
        (input.elapsed memory ∧ (chooseStage input memory).2.changedAt = some input.now))) := by
  unfold chooseStage
  simp only [hvisible, Bool.not_true, Bool.false_eq_true, if_false]
  by_cases hsame : sameSet (input.desired memory) (input.kept memory) = true
  · exact Or.inl (by simp [hsame])
  · simp only [if_neg hsame]
    cases hforced : input.forced memory <;> cases hfree : input.free memory <;>
      cases helapsed : input.elapsed memory <;> simp

theorem tracks_eq : (chooseStage input memory).1 =
    (chooseStage input memory).2.cameras.map (fun u => .camera u (input.quality u)) ++
      if input.visible then input.screens.map .screen else [] := by
  unfold chooseStage
  cases input.visible <;> rfl

/-- The hold is started by a choice, or goes on. -/
theorem changedAt_cases (input : StageInput U) (memory : StageMemory U) :
    (chooseStage input memory).2.changedAt = memory.changedAt ∨
    (chooseStage input memory).2.changedAt = some input.now := by
  cases hvisible : input.visible with
  | false => exact Or.inl (by simp [chooseStage, hvisible])
  | true =>
    rcases cameras_cases memory hvisible with ⟨-, hsame, -⟩ | ⟨-, ⟨-, hsame⟩ | ⟨-, hnow⟩⟩
    · exact Or.inl hsame
    · exact Or.inl hsame
    · exact Or.inr hnow

/-- **A choice is fair**, where nobody is on the stage twice. -/
theorem fairStage (hmemory : memory.cameras.Nodup) (honce : (input.others.map (·.userId)).Nodup) :
    FairStage input memory := by
  cases hvisible : input.visible with
  | false =>
    have hnone : (chooseStage input memory).2.cameras = [] := by
      unfold chooseStage
      simp [hvisible]
    refine ⟨?_, ?_, ?_, fun h => absurd (hvisible.symm.trans h) (by decide), tracks_eq⟩ <;>
      simp [hnone, hvisible]
  | true =>
    have hkept : (input.kept memory).Nodup := hmemory.filter _
    have hle : (input.kept memory).length ≤ input.withCamera.length :=
      (List.Nodup.subperm hkept fun u hu => (mem_kept.mp hu).2).length_le
    rcases cameras_cases memory hvisible with ⟨hcameras, -, hwhy⟩ | ⟨hcameras, -⟩
    · refine ⟨hcameras ▸ hkept, fun u hu => (mem_kept.mp (hcameras ▸ hu)).2, ?_, fun _ u hu => ?_,
        tracks_eq⟩
      · rw [hcameras, if_pos hvisible]
        rcases hwhy with hsame | ⟨hforced, hfree⟩
        · rw [← (sameSet_iff.mp hsame).1, desired_length]
        · simp only [forced, Bool.or_eq_false_iff, decide_eq_false_iff_not] at hforced
          simp only [free, decide_eq_false_iff_not] at hfree
          omega
      · rw [hcameras]
        rcases hwhy with hsame | ⟨hforced, -⟩
        · exact (sameSet_iff.mp hsame).2 u (pinned_mem_desired hu)
        · simp only [forced, hu, any_some, Bool.or_eq_false_iff, decide_eq_false_iff_not,
            not_not] at hforced
          exact hforced.1.1
    · refine ⟨hcameras ▸ nodup_desired honce, fun u hu => withCamera_of_desired (hcameras ▸ hu), ?_,
        fun _ u hu => hcameras ▸ pinned_mem_desired hu, tracks_eq⟩
      rw [hcameras, if_pos hvisible, desired_length]

/-- **Who drops somebody has waited**, and waits anew – where choices that do not wait keep who is
there. -/
theorem waited_of_drops {previous : StageInput U} (hkeeps : Keeps previous input memory)
    (h : Drops previous input memory) :
    input.elapsed memory ∧ (chooseStage input memory).2.changedAt = some input.now := by
  obtain ⟨hvisible, hslots, hpin, u, hu, hcamera, hnot⟩ := h
  have hkept : u ∈ input.kept memory := mem_kept.mpr ⟨hu, hcamera⟩
  rcases cameras_cases memory hvisible with ⟨hcameras, -⟩ | ⟨hcameras, hwhy⟩
  · exact absurd (hcameras ▸ hkept) hnot
  · exact hwhy.resolve_left fun hunheld =>
      hnot (hcameras ▸ hkeeps hslots hpin hunheld.1 u hkept)

end StageInput

/-! ## Runs -/

section Runs

variable {inputs : List (StageInput U)} {input : StageInput U} {m n : ℕ}

theorem stageMemory_take_succ (h : inputs[n]? = some input) :
    stageMemory (inputs.take (n + 1)) = (chooseStage input (stageMemory (inputs.take n))).2 := by
  unfold stageMemory
  rw [take_add_one, h, toList_some, foldl_append]
  rfl

theorem nodup_stageMemory (hrun : StageRun inputs) :
    ∀ n, (stageMemory (inputs.take n)).cameras.Nodup := by
  intro n
  induction n with
  | zero => exact nodup_nil
  | succ n ih =>
    cases h : inputs[n]? with
    | none =>
      rwa [take_add_one, h, toList_none, append_nil]
    | some input =>
      rw [stageMemory_take_succ h]
      exact (fairStage ih (hrun.once input (mem_of_getElem? h))).nodup

/-- Once the hold was started, it was started no earlier. -/
theorem changedAt_later (hrun : StageRun inputs) (hm : inputs[m]? = some input)
    (h : (stageMemory (inputs.take (m + 1))).changedAt = some input.now) (hmn : m < n) :
    ∃ t, (stageMemory (inputs.take n)).changedAt = some t ∧ input.now ≤ t := by
  induction n, hmn using Nat.le_induction with
  | base => exact ⟨_, h, le_rfl⟩
  | succ n hmn ih =>
    obtain ⟨t, ht, hle⟩ := ih
    cases hn : inputs[n]? with
    | none =>
      rw [take_add_one, hn, toList_none, append_nil]
      exact ⟨t, ht, hle⟩
    | some next =>
      rw [stageMemory_take_succ hn]
      rcases changedAt_cases next (stageMemory (inputs.take n)) with heq | heq
      · exact ⟨t, heq.trans ht, hle⟩
      · refine ⟨_, heq, ?_⟩
        obtain ⟨hm', rfl⟩ := List.getElem?_eq_some_iff.mp hm
        obtain ⟨hn', rfl⟩ := List.getElem?_eq_some_iff.mp hn
        exact pairwise_iff_getElem.mp hrun.later m n hm' hn' hmn

/-- **A stage is fair, and calm where choices that do not wait keep who is there.** -/
theorem stage_fair_and_calm (hrun : StageRun inputs) :
    (∀ n input, inputs[n]? = some input → FairStage input (stageMemory (inputs.take n))) ∧
    ((∀ n previous input, ChoiceAt inputs n previous input →
      Keeps previous input (stageMemory (inputs.take (n + 1)))) → CalmStage inputs) := by
  constructor
  · intro n input h
    exact fairStage (nodup_stageMemory hrun n) (hrun.once input (mem_of_getElem? h))
  · intro hkeeps m n previous₁ input₁ previous₂ input₂ hmn hm hn hdrop₁ hdrop₂
    -- the hold that the first one starts has gone by when the second one drops somebody
    have hstart := (waited_of_drops (hkeeps m _ _ hm) hdrop₁).2
    rw [← stageMemory_take_succ hm.input] at hstart
    obtain ⟨t, ht, hle⟩ := changedAt_later hrun hm.input hstart (Nat.succ_lt_succ hmn)
    have helapsed := (waited_of_drops (hkeeps n _ _ hn) hdrop₂).1
    rw [StageInput.elapsed, ht, all_some, decide_eq_true_eq] at helapsed
    show input₁.now + STAGE_HOLD_MS ≤ input₂.now
    omega

/-- Six people on a phone, of whom the first may turn the camera off. -/
def onPhone (first : Bool) (speaking : List ℕ) (now : ℤ) : StageInput ℕ where
  selfCamera := false
  others := ⟨1, first, false⟩ :: [2, 3, 4, 5, 6].map fun u => ⟨u, true, false⟩
  pinnedId := none
  speaking := speaking
  visible := true
  mobile := true
  now := now

theorem onPhone_once (first : Bool) (speaking : List ℕ) (now : ℤ) :
    ((onPhone first speaking now).others.map (·.userId)).Nodup := by
  show [1, 2, 3, 4, 5, 6].Nodup
  decide

/-- Two exchanges with the hold between them. -/
theorem stage_fair_and_calm_phone :
    CalmStage [onPhone true [] 0, onPhone true [5] 1, onPhone true [6] 5001] := by
  refine (stage_fair_and_calm ⟨?_, by decide⟩).2 fun n previous input h => ?_
  · simpa only [forall_mem_cons] using
      ⟨onPhone_once _ _ _, onPhone_once _ _ _, onPhone_once _ _ _, by simp⟩
  · obtain ⟨hprevious, hinput⟩ := h
    match n with
    | 0 | 1 =>
      obtain rfl := Option.some.inj hprevious
      obtain rfl := Option.some.inj hinput
      unfold Keeps
      decide
    | n + 2 => cases hinput

/-- **Two exchanges in a millisecond**: somebody speaks, and another drops from the stage; then the
first of the huddle turns the camera off while two more speak, and one more drops. -/
theorem exchanged_twice : ∃ inputs : List (StageInput ℕ), StageRun inputs ∧ ¬ CalmStage inputs := by
  refine ⟨[onPhone true [] 0, onPhone true [5] 1, onPhone false [4, 6] 2], ⟨?_, by decide⟩, fun h => ?_⟩
  · simpa only [forall_mem_cons] using
      ⟨onPhone_once _ _ _, onPhone_once _ _ _, onPhone_once _ _ _, by simp⟩
  · have hfirst : Drops (onPhone true [] 0) (onPhone true [5] 1) (stageMemory [onPhone true [] 0]) :=
      ⟨rfl, le_rfl, rfl, 4, by decide⟩
    have hsecond : Drops (onPhone true [5] 1) (onPhone false [4, 6] 2)
        (stageMemory [onPhone true [] 0, onPhone true [5] 1]) :=
      ⟨rfl, le_rfl, rfl, 3, by decide⟩
    cases h 0 1 _ _ _ _ Nat.zero_lt_one ⟨rfl, rfl⟩ ⟨rfl, rfl⟩ hfirst hsecond

end Runs

end Hibari
