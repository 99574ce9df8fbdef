import Hibari.Revocations

/-!
# One-time tokens

A token that is sent by mail is consumed by one `UPDATE` that asks whether it is good, so it
is consumed once. When a token is issued, the good tokens of the same user and purpose are
deleted first: only the latest mail should work. The tokens to delete are found when the
statement begins, and nothing keeps two calls from issuing at the same time. Each deletes what
was there before both, and both add a token (`two_tokens_issued`).

As long as no token is issued between the statement that deletes and its commit, only the
last one issued is good, and a reset leaves none (`issued_last`).
-/

namespace Hibari

open List OneTimeToken AuthTables TransitionSystem

/-- The tokens of a user for a purpose, in the order in which they were committed. -/
def slot (l : List OneTimeToken) (userId : Ulid) (purpose : TokenPurpose) : List OneTimeToken :=
  l.filter fun x => decide (x.userId = userId ∧ x.purpose = purpose)

/-- **Only the token that was issued last is good.** -/
def LastIssued (l : List OneTimeToken) : Prop :=
  ∀ x ∈ l, x.live = true → (slot l x.userId x.purpose).getLast? = some x

/-- A token that is written keeps its name and its owner; it is not good again, and if it was
consumed it stays so. -/
structure TokenWrite (g : OneTimeToken → OneTimeToken) : Prop where
  id : ∀ x, (g x).id = x.id
  userId : ∀ x, (g x).userId = x.userId
  purpose : ∀ x, (g x).purpose = x.purpose
  live : ∀ x, (g x).live = true → g x = x
  consumed : ∀ x, x.consumed = true → (g x).consumed = true

/-- **What a commit does to the one-time tokens**: some are written, and one may be added. -/
inductive OneTimeMove (l : List OneTimeToken) : List OneTimeToken → Prop
  | write {g : OneTimeToken → OneTimeToken} : TokenWrite g → OneTimeMove l (l.map g)
  | issue {g : OneTimeToken → OneTimeToken} {token : OneTimeToken} : TokenWrite g →
      (∀ x ∈ l, x.id ≠ token.id) → OneTimeMove l (l.map g ++ [token])

section Tables

variable {l l' : List OneTimeToken} {x token : OneTimeToken} {g f : OneTimeToken → OneTimeToken}
  {seen todo got : List Ulid} {hit : OneTimeToken → Bool}

theorem TokenWrite.refl : TokenWrite fun x => x :=
  ⟨fun _ => rfl, fun _ => rfl, fun _ => rfl, fun _ _ => rfl, fun _ h => h⟩

theorem TokenWrite.comp (hf : TokenWrite f) (hg : TokenWrite g) : TokenWrite fun x => f (g x) where
  id x := (hf.id _).trans (hg.id x)
  userId x := (hf.userId _).trans (hg.userId x)
  purpose x := (hf.purpose _).trans (hg.purpose x)
  live x hx := by
    have hfx := hf.live _ hx
    rw [hfx] at hx ⊢
    exact hg.live x hx
  consumed x hx := hf.consumed _ (hg.consumed x hx)

theorem tokenWrite_deletedIn (ids : List Ulid) : TokenWrite (OneTimeToken.deletedIn ids) where
  id x := x.deletedIn_id
  userId x := x.deletedIn_userId
  purpose x := x.deletedIn_purpose
  live _ hx := (of_deletedIn_live hx).2
  consumed x hx := by
    unfold OneTimeToken.deletedIn
    split <;> exact hx

theorem tokenWrite_consumedAs (id : Ulid) : TokenWrite (OneTimeToken.consumedAs id) where
  id x := x.consumedAs_id
  userId x := x.consumedAs_userId
  purpose x := x.consumedAs_purpose
  live _ hx := (of_consumedAs_live hx).2
  consumed x hx := by
    unfold OneTimeToken.consumedAs
    split
    · rfl
    · exact hx

theorem OneTimeMove.refl : OneTimeMove l l := by
  have hwrite : OneTimeMove l (l.map fun x => x) := .write .refl
  rw [map_id'] at hwrite
  exact hwrite

theorem OneTimeMove.stays (hmove : OneTimeMove l l') (hx : x ∈ l) :
    ∃ x' ∈ l', x'.id = x.id ∧ (x.consumed = true → x'.consumed = true) := by
  cases hmove with
  | write hg => exact ⟨_, mem_map_of_mem hx, hg.id x, hg.consumed x⟩
  | issue hg =>
    exact ⟨_, mem_append_left _ (mem_map_of_mem hx), hg.id x, hg.consumed x⟩

/-- A token that is good was so, or is new. -/
theorem OneTimeMove.comes (hmove : OneTimeMove l l') (hx : x ∈ l') (hlive : x.live = true) :
    x ∈ l ∨ ∀ y ∈ l, y.id ≠ x.id := by
  have hmap : ∀ {g}, TokenWrite g → x ∈ l.map g → x ∈ l := by
    intro g hg hmem
    obtain ⟨y, hy, rfl⟩ := mem_map.mp hmem
    rw [hg.live y hlive]
    exact hy
  cases hmove with
  | write hg => exact .inl (hmap hg hx)
  | issue hg hnew =>
    rcases mem_append.mp hx with hx | hx
    · exact .inl (hmap hg hx)
    · rw [mem_singleton.mp hx]
      exact .inr hnew

theorem slot_map {userId : Ulid} {purpose : TokenPurpose} (hg : TokenWrite g) :
    slot (l.map g) userId purpose = (slot l userId purpose).map g := by
  unfold slot
  rw [filter_map]
  congr 1
  refine filter_congr fun x _ => ?_
  show decide ((g x).userId = userId ∧ (g x).purpose = purpose) = _
  rw [hg.userId, hg.purpose]

theorem LastIssued.map (h : LastIssued l) (hg : TokenWrite g) : LastIssued (l.map g) := by
  intro x hx hlive
  obtain ⟨y, hy, rfl⟩ := mem_map.mp hx
  have hsame := hg.live y hlive
  rw [hsame] at hlive ⊢
  rw [slot_map hg, getLast?_map, h y hy hlive, Option.map_some, hsame]

/-- **A token is issued**, and no other of its user and purpose is good. -/
theorem LastIssued.concat (h : LastIssued l)
    (hdead : ∀ x ∈ l, x.userId = token.userId → x.purpose = token.purpose → x.live = false) :
    LastIssued (l ++ [token]) := by
  intro x hx hlive
  unfold slot
  rw [filter_append]
  rcases mem_append.mp hx with hx | hx
  · have hnot : ¬ (token.userId = x.userId ∧ token.purpose = x.purpose) := fun heq => by
      rw [hdead x hx heq.1.symm heq.2.symm] at hlive
      cases hlive
    rw [filter_singleton, decide_eq_false hnot]
    show (slot l x.userId x.purpose ++ []).getLast? = some x
    rw [append_nil]
    exact h x hx hlive
  · rw [mem_singleton.mp hx, filter_singleton, decide_eq_true ⟨rfl, rfl⟩]
    exact getLast?_concat

/-! ## What a statement that deletes has found -/

/-- The condition of a statement, among the tokens that it could see. -/
def known (seen : List Ulid) (hit : OneTimeToken → Bool) (x : OneTimeToken) : Bool :=
  hit x && decide (x.id ∈ seen)

/-- **A statement that deletes covers what it could see.** -/
structure Clears (seen : List Ulid) (hit : OneTimeToken → Bool) (l : List OneTimeToken)
    (todo got : List Ulid) : Prop where
  there : ∀ k ∈ seen, ∃ x ∈ l, x.id = k
  covers : SnapshotUpdate.Covers OneTimeToken.id (known seen hit) l todo got

theorem Clears.move (h : Clears seen hit l todo got) (hmove : OneTimeMove l l')
    (hhit : ∀ x, hit x = true → x.live = true) : Clears seen hit l' todo got where
  there k hk := by
    obtain ⟨x, hx, rfl⟩ := h.there k hk
    obtain ⟨x', hx', hid, -⟩ := hmove.stays hx
    exact ⟨x', hx', hid⟩
  covers := by
    refine h.covers.mono fun x' hx' hknown => ?_
    obtain ⟨hx'hit, hx'seen⟩ := (Bool.and_eq_true _ _).mp hknown
    rcases hmove.comes hx' (hhit x' hx'hit) with hold | hnew
    · exact ⟨x', hold, rfl, hknown⟩
    · obtain ⟨x, hx, hid⟩ := h.there _ (of_decide_eq_true hx'seen)
      exact absurd hid (hnew x hx)

theorem clears_found (hseen : ∀ x ∈ l, hit x = true → x.id ∈ seen)
    (hthere : ∀ k ∈ seen, ∃ x ∈ l, x.id = k) :
    Clears seen hit l (SnapshotUpdate.found OneTimeToken.id hit l) [] where
  there := hthere
  covers x hx hknown := .inr
    (SnapshotUpdate.mem_found.mpr ⟨x, hx, rfl, ((Bool.and_eq_true _ _).mp hknown).1⟩)

theorem Clears.take {k : Ulid} (h : Clears seen hit l (k :: todo) got) :
    Clears seen hit l todo (SnapshotUpdate.take OneTimeToken.id hit l got k) where
  there := h.there
  covers := h.covers.take fun _ _ hknown => ((Bool.and_eq_true _ _).mp hknown).1

/-- **It has got all that is good in the end**, if nothing came that it could not see. -/
theorem Clears.mem_got (h : Clears seen hit l [] got)
    (hall : ∀ x ∈ l, hit x = true → x.id ∈ seen) : ∀ x ∈ l, hit x = true → x.id ∈ got := by
  intro x hx hhit
  refine h.covers.mem_got x hx ?_
  unfold known
  rw [hhit, decide_eq_true (hall x hx hhit)]
  rfl

end Tables

/-- What a call is to delete, it covers. -/
def AuthTask.Clears (l : List OneTimeToken) : AuthTask → Prop
  | issuing token seen todo got => Hibari.Clears seen token.replaces l todo got
  | clearing token _ seen todo got => Hibari.Clears seen token.voids l todo got
  | revoke (.reset token _ seen deletes) | revoking (.reset token _ seen deletes) _ _ _ =>
    Hibari.Clears seen token.voids l [] deletes
  | _ => True

/-- The token that a call has consumed, others do not know it yet. -/
def AuthTask.uses : AuthTask → Option OneTimeToken
  | verifying token | marking token | resetting token _ | clear token _ | clearing token _ _ _ _ |
    revoke (.reset token _ _ _) | revoking (.reset token _ _ _) _ _ _ => some token
  | _ => none

/-- The token that was consumed by a call that has succeeded. -/
def AuthTask.consumed : AuthTask → Option Ulid
  | done (.verified token) | done (.revoked (.reset token _ _ _) _ _) => some token.id
  | _ => none

/-- **A call commits alone**: no token of the user and purpose that is good now was issued since
its statement that deletes began. -/
def AuthTask.Alone (l : List OneTimeToken) : AuthTask → Prop
  | issuing token seen [] _ | revoking (.reset token _ seen _) _ [] _ =>
    ∀ x ∈ l, token.replaces x = true → x.id ∈ seen
  | _ => True

instance (l : List OneTimeToken) (t : AuthTask) : Decidable (t.Alone l) := by
  unfold AuthTask.Alone
  split <;> infer_instance

section Tasks

variable {l l' : List OneTimeToken} {token : OneTimeToken} {t : AuthTask}

theorem replaces_iff {x : OneTimeToken} : token.replaces x = true ↔
    x.userId = token.userId ∧ x.purpose = token.purpose ∧ x.live = true := by
  unfold OneTimeToken.replaces
  rw [Bool.and_eq_true, decide_eq_true_iff, and_assoc]

theorem live_of_replaces {x : OneTimeToken} (h : token.replaces x = true) : x.live = true :=
  (replaces_iff.mp h).2.2

theorem live_of_voids {x : OneTimeToken} (h : token.voids x = true) : x.live = true :=
  live_of_replaces ((Bool.and_eq_true _ _).mp h).1

theorem AuthTask.Clears.move (h : t.Clears l) (hmove : OneTimeMove l l') : t.Clears l' := by
  cases t with
  | issuing => exact Hibari.Clears.move h hmove fun _ => live_of_replaces
  | clearing => exact Hibari.Clears.move h hmove fun _ => live_of_voids
  | revoke r | revoking r =>
    cases r with
    | reset => exact Hibari.Clears.move h hmove fun _ => live_of_voids
    | _ => trivial
  | _ => trivial

end Tasks

namespace AuthService

variable {h : AuthHashes} {s s' : AuthService} {a : AuthAction} {i : ℕ} {t t' : AuthTask}

/-- A statement that deletes has seen what there is of its user and purpose. -/
theorem clears_begin {d : AuthTables} {token : OneTimeToken} {hit : OneTimeToken → Bool}
    (hhit : ∀ x, hit x = true → x.userId = token.userId ∧ x.purpose = token.purpose) :
    Clears ((d.oneTimeTokens.filter fun x =>
        decide (x.userId = token.userId ∧ x.purpose = token.purpose)).map OneTimeToken.id) hit
      d.oneTimeTokens (SnapshotUpdate.found OneTimeToken.id hit d.oneTimeTokens) [] := by
  refine clears_found (fun x hx hxhit => ?_) fun k hk => ?_
  · exact mem_map_of_mem (mem_filter.mpr ⟨hx, decide_eq_true (hhit x hxhit)⟩)
  · obtain ⟨x, hx, rfl⟩ := mem_map.mp hk
    exact ⟨x, (mem_filter.mp hx).1, rfl⟩

theorem slot_of_replaces {token x : OneTimeToken} (hreplaces : token.replaces x = true) :
    x.userId = token.userId ∧ x.purpose = token.purpose :=
  ⟨(replaces_iff.mp hreplaces).1, (replaces_iff.mp hreplaces).2.1⟩

/-- What a call covers when it goes on. -/
theorem Turn.clears (hturn : Turn h s t t') (hclears : t.Clears s.tables.oneTimeTokens) :
    t'.Clears s.tables.oneTimeTokens := by
  cases hturn with
  | refresh =>
    unfold refreshed
    split
    · trivial
    · trivial
    · split <;> trivial
  | @revoke r | @revoking r families todo got k hfree => cases r <;> exact hclears
  | issue => exact clears_begin fun x => slot_of_replaces
  | clear => exact clears_begin fun x hx => slot_of_replaces ((Bool.and_eq_true _ _).mp hx).1
  | issuing | clearing => exact Hibari.Clears.take hclears
  | cleared => exact hclears
  | _ => trivial

/-- **A commit writes one-time tokens, and may add one.** -/
theorem Commits.oneTimeMove (hc : Commits h s a s') :
    OneTimeMove s.tables.oneTimeTokens s'.tables.oneTimeTokens := by
  cases hc with
  | rotate _ hd =>
    obtain ⟨rfl, -⟩ := rotate_eq_some hd
    exact .refl
  | @revoke k r families got hk =>
    show OneTimeMove _ (s.tables.revoke r got).oneTimeTokens
    rw [revoke_oneTimeTokens]
    cases r with
    | reset token _ _ deletes =>
      show OneTimeMove _ ((s.tables.oneTimeTokens.map _).map _)
      rw [map_map]
      exact .write ((tokenWrite_deletedIn deletes).comp (tokenWrite_consumedAs token.id))
    | _ => exact .refl
  | logIn _ hd =>
    obtain ⟨rfl, -, -⟩ := createSession_eq_some hd
    exact .refl
  | issue _ hd =>
    obtain ⟨rfl, hnew⟩ := issue_eq_some hd
    exact .issue (tokenWrite_deletedIn _) hnew
  | @verify k token hk => exact .write (tokenWrite_consumedAs token.id)
  | register hd hsession =>
    obtain ⟨rfl, -⟩ := createUser_eq_some hd
    obtain ⟨rfl, -, -⟩ := createSession_eq_some hsession
    exact .refl
  | leave => exact .refl

theorem act_oneTimeMove (hact : act h s a = some s') :
    OneTimeMove s.tables.oneTimeTokens s'.tables.oneTimeTokens := by
  rcases act_cases hact with hc | ⟨call, -, rfl⟩ | ⟨j, u, u', -, -, -, rfl, -⟩
  · exact hc.oneTimeMove
  · exact .refl
  · exact .refl

/-- **Calls that run at once, and what they are to delete.** -/
structure Clearing (h : AuthHashes) (s : AuthService) : Prop where
  sound : s.Sound h
  clears : ∀ t ∈ s.tasks, t.Clears s.tables.oneTimeTokens

theorem Clearing.act (hs : s.Clearing h) (hact : act h s a = some s') : s'.Clearing h := by
  refine ⟨hs.sound.act hact, fun t' ht' => ?_⟩
  obtain ⟨i, hi'⟩ := mem_iff_getElem?.mp ht'
  have hmove := act_oneTimeMove hact
  rcases task_cases hact hi' with hi | ⟨call, rfl⟩ | ⟨t, hi, result, rfl⟩ | ⟨t, hi, hturn⟩
  · exact (hs.clears t' (mem_of_getElem? hi)).move hmove
  · refine AuthCall.begins_of (P := AuthTask.Clears s'.tables.oneTimeTokens) trivial ?_
    cases call <;> trivial
  · trivial
  · exact (hturn.clears (hs.clears t (mem_of_getElem? hi))).move hmove

theorem clearing_of_init (hinit : (system h).init s) : s.Clearing h := by
  refine ⟨sound_of_init hinit, ?_⟩
  rw [show s = ⟨⟨[], [], []⟩, []⟩ from hinit]
  exact nofun

/-- **Calls issue alone.** -/
def SafeIssue (s : AuthService) : AuthAction → Prop
  | .step i => ∀ t ∈ s.tasks[i]?, t.Alone s.tables.oneTimeTokens
  | _ => True

instance (s : AuthService) (a : AuthAction) : Decidable (SafeIssue s a) :=
  match a with
  | .step i => inferInstanceAs (Decidable (∀ t ∈ s.tasks[i]?, t.Alone s.tables.oneTimeTokens))
  | .start _ | .fail _ | .register .. | .leave _ => isTrue trivial

/-- **Where calls issue alone, the token that was issued last is the only good one.** -/
theorem lastIssued_act (hs : s.Clearing h) (hlast : LastIssued s.tables.oneTimeTokens)
    (hsafe : SafeIssue s a) (hact : act h s a = some s') : LastIssued s'.tables.oneTimeTokens := by
  rcases act_cases hact with hc | ⟨call, -, rfl⟩ | ⟨j, u, u', -, -, -, rfl, -⟩
  · cases hc with
    | rotate _ hd =>
      obtain ⟨rfl, -⟩ := rotate_eq_some hd
      exact hlast
    | @revoke k r families got hk =>
      show LastIssued (s.tables.revoke r got).oneTimeTokens
      rw [revoke_oneTimeTokens]
      cases r with
      | reset token _ _ deletes =>
        exact (hlast.map (tokenWrite_consumedAs token.id)).map (tokenWrite_deletedIn deletes)
      | _ => exact hlast
    | logIn _ hd =>
      obtain ⟨rfl, -, -⟩ := createSession_eq_some hd
      exact hlast
    | @issue k token seen got d hk hd =>
      obtain ⟨rfl, -⟩ := issue_eq_some hd
      have hclears : Clears seen token.replaces s.tables.oneTimeTokens [] got :=
        hs.clears _ (mem_of_getElem? hk)
      refine (hlast.map (tokenWrite_deletedIn got)).concat fun x hx huser hpurpose => ?_
      obtain ⟨y, hy, rfl⟩ := mem_map.mp hx
      rw [deletedIn_userId] at huser
      rw [deletedIn_purpose] at hpurpose
      by_contra hnot
      have hlive : (y.deletedIn got).live = true := Bool.eq_true_of_not_eq_false hnot
      obtain ⟨hkept, hsame⟩ := of_deletedIn_live hlive
      rw [hsame] at hlive
      exact hkept (hclears.mem_got (hsafe _ hk) y hy (replaces_iff.mpr ⟨huser, hpurpose, hlive⟩))
    | @verify k token hk => exact hlast.map (tokenWrite_consumedAs token.id)
    | register hd hsession =>
      obtain ⟨rfl, -⟩ := createUser_eq_some hd
      obtain ⟨rfl, -, -⟩ := createSession_eq_some hsession
      exact hlast
    | leave => exact hlast
  · exact hlast
  · exact hlast

/-! ## Consumed once -/

/-- What a call has consumed is there, and others see it good. -/
theorem open_of_uses {d : AuthTables} {token : OneTimeToken} (hfits : t.Fits h d)
    (huses : t.uses = some token) : token ∈ d.oneTimeTokens ∧ token.live = true := by
  cases t with
  | verifying | marking | resetting | clear =>
    cases huses
    exact ⟨hfits.mem, hfits.live⟩
  | clearing =>
    cases huses
    exact ⟨hfits.1.mem, hfits.1.live⟩
  | revoke r =>
    cases r with
    | reset =>
      cases huses
      exact ⟨hfits.1.mem, hfits.1.live⟩
    | _ => exact absurd huses (by simp [AuthTask.uses])
  | revoking r =>
    cases r with
    | reset =>
      cases huses
      exact ⟨hfits.1.1.mem, hfits.1.1.live⟩
    | _ => exact absurd huses (by simp [AuthTask.uses])
  | _ => exact absurd huses (by simp [AuthTask.uses])

/-- **A commit of a call** ends the call well; the token that it has consumed is seen from then
on. -/
theorem Commits.ends (hc : Commits h s a s') :
    (s'.tasks = s.tasks ∧ (∀ i, a ≠ .step i) ∧ ∀ i, a ≠ .fail i) ∨
    ∃ i t result, a = .step i ∧ s.tasks[i]? = some t ∧ (∀ result, t ≠ .done result) ∧
      result ≠ .ended ∧ s'.tasks = s.tasks.set i (.done result) ∧
      ∀ id, (AuthTask.done result).consumed = some id → ∃ token, t.uses = some token ∧
        token.id = id ∧ ∃ g, s'.tables.oneTimeTokens = s.tables.oneTimeTokens.map g ∧
          ∀ x : OneTimeToken, (g x).id = x.id ∧ (x.id = id → (g x).consumed = true) := by
  cases hc with
  | rotate hk =>
    exact .inr ⟨_, _, _, rfl, hk, by simp, by simp, rfl,
      fun id hid => absurd hid (by simp [AuthTask.consumed])⟩
  | @revoke k r families got hk =>
    refine .inr ⟨_, _, _, rfl, hk, by simp, by simp, rfl, fun id hid => ?_⟩
    cases r with
    | reset token _ _ deletes =>
      cases hid
      refine ⟨token, rfl, rfl, fun x => (x.consumedAs token.id).deletedIn deletes, ?_, fun x => ?_⟩
      · show (s.tables.oneTimeTokens.map _).map _ = _
        rw [map_map]
        rfl
      · rw [deletedIn_id, consumedAs_id]
        exact ⟨rfl, fun heq => (tokenWrite_deletedIn deletes).consumed _ (consumedAs_consumed heq)⟩
    | _ => exact absurd hid (by simp [AuthTask.consumed])
  | logIn hk =>
    exact .inr ⟨_, _, _, rfl, hk, by simp, by simp, rfl,
      fun id hid => absurd hid (by simp [AuthTask.consumed])⟩
  | issue hk =>
    exact .inr ⟨_, _, _, rfl, hk, by simp, by simp, rfl,
      fun id hid => absurd hid (by simp [AuthTask.consumed])⟩
  | @verify k token hk =>
    refine .inr ⟨_, _, _, rfl, hk, by simp, by simp, rfl, fun id hid => ?_⟩
    cases hid
    exact ⟨token, rfl, rfl, _, rfl, fun x => ⟨x.consumedAs_id, consumedAs_consumed⟩⟩
  | register => exact .inl ⟨rfl, by simp, by simp⟩
  | leave => exact .inl ⟨rfl, by simp, by simp⟩

/-- A step in which a call goes on is no success. -/
theorem Turn.consumed (hturn : Turn h s t t') : t'.consumed = none := by
  cases hturn with
  | refresh =>
    unfold refreshed
    split
    · rfl
    · rfl
    · split <;> rfl
  | _ => rfl

/-- **Who has succeeded with a token**: who had before, or a call that commits now, of a token
that was good. -/
theorem consumed_of_act {id : Ulid} (hs : s.Sound h) (hact : act h s a = some s')
    (hi' : s'.tasks[i]? = some t') (hid : t'.consumed = some id) :
    s.tasks[i]? = some t' ∨ a = .step i ∧
      (∃ x ∈ s.tables.oneTimeTokens, x.id = id ∧ x.live = true) ∧
      ∃ x ∈ s'.tables.oneTimeTokens, x.id = id ∧ x.consumed = true := by
  rcases act_cases hact with hc | ⟨call, -, rfl⟩ | ⟨j, u, u', -, -, -, rfl, hturn⟩
  · rcases hc.ends with ⟨htasks, -⟩ | ⟨j, u, result, ha, hj, -, -, htasks, hconsumed⟩
    · rw [htasks] at hi'
      exact .inl hi'
    · rw [htasks] at hi'
      rcases HeldRows.getElem?_set_cases hi' with ⟨rfl, rfl⟩ | ⟨-, hold⟩
      · obtain ⟨token, huses, rfl, g, htokens, hg⟩ := hconsumed id hid
        obtain ⟨hmem, hlive⟩ := open_of_uses (hs.fits u (mem_of_getElem? hj)) huses
        refine .inr ⟨ha, ⟨token, hmem, rfl, hlive⟩, g token, ?_, (hg token).1, (hg token).2 rfl⟩
        rw [htokens]
        exact mem_map_of_mem hmem
      · exact .inl hold
  · rcases HeldRows.getElem?_concat_cases hi' with ⟨-, rfl⟩ | hold
    · have hnone : (call.begins h).consumed = none := by
        refine AuthCall.begins_of (P := fun t => t.consumed = none) rfl ?_
        cases call <;> rfl
      rw [hnone] at hid
      cases hid
    · exact .inl hold
  · rcases HeldRows.getElem?_set_cases hi' with ⟨-, rfl⟩ | ⟨-, hold⟩
    · rw [hturn.consumed] at hid
      cases hid
    · exact .inl hold

/-- **A token is consumed by one call.** -/
structure ConsumedOnce (s : AuthService) : Prop where
  there : ∀ (i : ℕ) t id, s.tasks[i]? = some t → t.consumed = some id →
    ∃ x ∈ s.tables.oneTimeTokens, x.id = id ∧ x.consumed = true
  once : ∀ (i j : ℕ) t u id, s.tasks[i]? = some t → s.tasks[j]? = some u →
    t.consumed = some id → u.consumed = some id → i = j

theorem ConsumedOnce.act (ho : s.ConsumedOnce) (hs : s.Sound h) (hact : act h s a = some s') :
    s'.ConsumedOnce where
  there i t id hi hid := by
    rcases consumed_of_act hs hact hi hid with hold | ⟨-, -, hnew⟩
    · obtain ⟨x, hx, rfl, hconsumed⟩ := ho.there i t id hold hid
      obtain ⟨x', hx', hxid, hstays⟩ := (act_oneTimeMove hact).stays hx
      exact ⟨x', hx', hxid, hstays hconsumed⟩
    · exact hnew
  once i j t u id hi hj hid hid' := by
    -- a token that is consumed now was good, so no call had consumed it before
    have hapart : ∀ {k : ℕ} {v : AuthTask}, s.tasks[k]? = some v → v.consumed = some id →
        ¬ ∃ x ∈ s.tables.oneTimeTokens, x.id = id ∧ x.live = true := by
      rintro k v hk hv ⟨x, hx, hxid, hlive⟩
      obtain ⟨y, hy, hyid, hconsumed⟩ := ho.there k v id hk hv
      have heq : x = y := inj_on_of_nodup_map hs.keyed.tokens hx hy (hxid.trans hyid.symm)
      subst heq
      unfold OneTimeToken.live at hlive
      rw [hconsumed] at hlive
      cases hlive
    rcases consumed_of_act hs hact hi hid with hold | ⟨ha, hopen, -⟩
    · rcases consumed_of_act hs hact hj hid' with hold' | ⟨-, hopen', -⟩
      · exact ho.once i j t u id hold hold' hid hid'
      · exact absurd hopen' (hapart hold hid)
    · rcases consumed_of_act hs hact hj hid' with hold' | ⟨ha', -, -⟩
      · exact absurd hopen (hapart hold' hid')
      · exact AuthAction.step.inj (ha.symm.trans ha')

theorem consumedOnce_of_init (hinit : (system h).init s) : s.ConsumedOnce := by
  rw [show s = ⟨⟨[], [], []⟩, []⟩ from hinit]
  exact ⟨fun i t id hi => absurd hi (by simp), fun i j t u id hi => absurd hi (by simp)⟩

/-! ## Errors -/

/-- **A call writes when it succeeds**, and at no other moment. -/
theorem tables_of_call (hact : act h s a = some s') (ha : a = .step i ∨ a = .fail i) :
    s'.tables = s.tables ∨ ∃ result, result ≠ .ended ∧
      s'.tasks[i]? = some (AuthTask.done result) := by
  rcases act_cases hact with hc | ⟨call, -, rfl⟩ | ⟨j, u, u', -, -, -, rfl, -⟩
  · refine .inr ?_
    rcases hc.ends with ⟨-, hstep, hfail⟩ | ⟨j, u, result, rfl, hj, -, hne, htasks, -⟩
    · rcases ha with ha | ha
      · exact absurd ha (hstep i)
      · exact absurd ha (hfail i)
    · rcases ha with ha | ha
      · obtain rfl := AuthAction.step.inj ha
        rw [htasks]
        exact ⟨result, hne, getElem?_set_self (List.getElem?_eq_some_iff.mp hj).1⟩
      · cases ha
  · exact .inl rfl
  · exact .inl rfl

/-- A call that is over stays as it ended. -/
theorem done_of_act {result : AuthResult} (hi : s.tasks[i]? = some (AuthTask.done result))
    (hact : act h s a = some s') : s'.tasks[i]? = some (AuthTask.done result) := by
  have hset : ∀ {k : ℕ} {t u : AuthTask}, s.tasks[k]? = some t → (∀ result, t ≠ .done result) →
      (s.tasks.set k u)[i]? = some (AuthTask.done result) := by
    intro k t u hk hnot
    have hne : k ≠ i := fun heq => hnot result (Option.some.inj (hk.symm.trans (heq ▸ hi)))
    rw [getElem?_set_ne hne]
    exact hi
  rcases act_cases hact with hc | ⟨call, -, rfl⟩ | ⟨j, u, u', -, hj, hnot, rfl, -⟩
  · rcases hc.ends with ⟨htasks, -⟩ | ⟨j, u, result, -, hj, hnot, -, htasks, -⟩
    · rw [htasks]
      exact hi
    · rw [htasks]
      exact hset hj hnot
  · show (s.tasks ++ [_])[i]? = _
    rw [getElem?_append_left (List.getElem?_eq_some_iff.mp hi).1]
    exact hi
  · exact hset hj hnot

/-! ## After a reset -/

/-- **Tokens that are of no use any more.** -/
structure Void (ids : List Ulid) (l : List OneTimeToken) : Prop where
  there : ∀ k ∈ ids, ∃ x ∈ l, x.id = k
  dead : ∀ x ∈ l, x.id ∈ ids → x.live = false

theorem Void.move {ids : List Ulid} {l l' : List OneTimeToken} (hv : Void ids l)
    (hmove : OneTimeMove l l') : Void ids l' where
  there k hk := by
    obtain ⟨x, hx, rfl⟩ := hv.there k hk
    obtain ⟨x', hx', hid, -⟩ := hmove.stays hx
    exact ⟨x', hx', hid⟩
  dead x hx hid := by
    by_contra hnot
    have hlive : x.live = true := Bool.eq_true_of_not_eq_false hnot
    rcases hmove.comes hx hlive with hold | hnew
    · exact hnot (hv.dead x hold hid)
    · obtain ⟨y, hy, hyid⟩ := hv.there _ hid
      exact hnew y hy hyid

/-- A reset that commits alone ends all tokens that the user could reset the password by. -/
theorem void_of_reset {token : OneTimeToken} {hash : String} {seen deletes families got : List Ulid}
    (hs : s.Clearing h)
    (hi : s.tasks[i]? = some (.revoking (.reset token hash seen deletes) families [] got))
    (hsafe : SafeIssue s (.step i)) (hact : act h s (.step i) = some s') :
    Void ((slot s.tables.oneTimeTokens token.userId token.purpose).map OneTimeToken.id)
      s'.tables.oneTimeTokens := by
  have hclears : Clears seen token.voids s.tables.oneTimeTokens [] deletes :=
    hs.clears _ (mem_of_getElem? hi)
  simp only [AuthService.act, hi, Option.bind_some, next] at hact
  cases hact
  show Void _ (s.tables.revoke (.reset token hash seen deletes) got).oneTimeTokens
  rw [revoke_oneTimeTokens]
  have hself : ∀ k ∈ (slot s.tables.oneTimeTokens token.userId token.purpose).map OneTimeToken.id,
      ∃ x ∈ s.tables.oneTimeTokens, x.id = k := fun k hk => by
    obtain ⟨x, hx, hid⟩ := mem_map.mp hk
    exact ⟨x, (mem_filter.mp hx).1, hid⟩
  refine ⟨fun k hk => ?_, fun x hx hid => ?_⟩
  · obtain ⟨x, hx, rfl⟩ := hself k hk
    refine ⟨_, mem_map_of_mem (mem_map_of_mem hx), ?_⟩
    rw [deletedIn_id, consumedAs_id]
  · obtain ⟨z, hz, rfl⟩ := mem_map.mp hx
    obtain ⟨y, hy, rfl⟩ := mem_map.mp hz
    rw [deletedIn_id, consumedAs_id] at hid
    by_contra hnot
    obtain ⟨hkept, hsame⟩ :=
      of_deletedIn_live (Bool.eq_true_of_not_eq_false hnot)
    rw [hsame] at hnot
    have hlive : (y.consumedAs token.id).live = true := Bool.eq_true_of_not_eq_false hnot
    obtain ⟨hne, hsame'⟩ := of_consumedAs_live hlive
    rw [hsame'] at hkept hlive
    obtain ⟨x₀, hx₀, hxid⟩ := mem_map.mp hid
    have heq : x₀ = y := inj_on_of_nodup_map hs.sound.keyed.tokens (mem_filter.mp hx₀).1 hy hxid
    subst heq
    obtain ⟨huser, hpurpose⟩ := of_decide_eq_true (mem_filter.mp hx₀).2
    have hreplaces : token.replaces x₀ = true := replaces_iff.mpr ⟨huser, hpurpose, hlive⟩
    refine hkept (hclears.mem_got (fun z hz hhit => ?_) x₀ hy ?_)
    · exact hsafe _ hi z hz ((Bool.and_eq_true _ _).mp hhit).1
    · exact (Bool.and_eq_true _ _).mpr ⟨hreplaces, decide_eq_true hne⟩

/-- **One-time tokens are issued one at a time**, where calls issue alone. Of the tokens of a
user for a purpose, the one that was issued last is the only one that may be good. Whatever
runs at once, each token is consumed by one call; a call writes nothing unless it succeeds; and
after a reset that commits alone no token that its user had for it before is ever good again,
nor has a call that runs consumed one. -/
theorem issued_last (hreachable : (system h).ReachableBy SafeIssue s) :
    LastIssued s.tables.oneTimeTokens ∧
    (∀ x ∈ s.tables.oneTimeTokens, ∀ y ∈ s.tables.oneTimeTokens, x.live = true → y.live = true →
      x.userId = y.userId → x.purpose = y.purpose → x = y) ∧
    (∀ (i j : ℕ) t u id, s.tasks[i]? = some t → s.tasks[j]? = some u →
      t.consumed = some id → u.consumed = some id → i = j) ∧
    (∀ (i : ℕ) a s', a = .step i ∨ a = .fail i → (system h).step s a = some s' →
      s'.tables = s.tables ∨ ∃ result, result ≠ .ended ∧
        s'.tasks[i]? = some (AuthTask.done result)) ∧
    (∀ (i : ℕ) result a s', s.tasks[i]? = some (AuthTask.done result) →
      (system h).step s a = some s' → s'.tasks[i]? = some (AuthTask.done result)) ∧
    ∀ (i : ℕ) token hash seen deletes families got s₁ s₂,
      s.tasks[i]? = some (AuthTask.revoking (.reset token hash seen deletes) families [] got) →
      SafeIssue s (.step i) → (system h).step s (.step i) = some s₁ →
      (system h).Steps (fun _ _ => True) s₁ s₂ →
      ∀ x ∈ s.tables.oneTimeTokens, x.userId = token.userId → x.purpose = token.purpose →
        (∀ y ∈ s₂.tables.oneTimeTokens, y.id = x.id → y.live = false) ∧
          ∀ t ∈ s₂.tasks, ∀ y, t.uses = some y → y.id ≠ x.id := by
  obtain ⟨⟨hs, honce⟩, hlast⟩ : (s.Clearing h ∧ s.ConsumedOnce) ∧ LastIssued s.tables.oneTimeTokens :=
    hreachable.invariant
      (I := fun s => (s.Clearing h ∧ s.ConsumedOnce) ∧ LastIssued s.tables.oneTimeTokens)
      (fun u hinit => ⟨⟨clearing_of_init hinit, consumedOnce_of_init hinit⟩, by
        rw [show u = ⟨⟨[], [], []⟩, []⟩ from hinit]
        exact fun x hx => nomatch hx⟩)
      fun _ _ _ hu hsafe hstep => ⟨⟨hu.1.1.act hstep, hu.1.2.act hu.1.1.sound hstep⟩,
        lastIssued_act hu.1.1 hu.2 hsafe hstep⟩
  refine ⟨hlast, fun x hx y hy hxlive hylive huser hpurpose => ?_, honce.once,
    fun i a s' ha hstep => tables_of_call (h := h) hstep ha,
    fun i result a s' hi hstep => done_of_act (h := h) hi hstep, ?_⟩
  · have hxlast := hlast x hx hxlive
    rw [huser, hpurpose, hlast y hy hylive] at hxlast
    exact (Option.some.inj hxlast).symm
  · intro i token hash seen deletes families got s₁ s₂ hi hsafe hstep hrun x hx huser hpurpose
    have hact : act h s (.step i) = some s₁ := hstep
    obtain ⟨hs₂, hvoid⟩ : s₂.Sound h ∧
        Void ((slot s.tables.oneTimeTokens token.userId token.purpose).map OneTimeToken.id)
          s₂.tables.oneTimeTokens :=
      hrun.preserves (I := fun u => u.Sound h ∧
        Void ((slot s.tables.oneTimeTokens token.userId token.purpose).map OneTimeToken.id)
          u.tables.oneTimeTokens)
        (fun _ _ _ hu _ hnext => ⟨hu.1.act hnext, hu.2.move (act_oneTimeMove (h := h) hnext)⟩)
        ⟨hs.sound.act hact, void_of_reset hs hi hsafe hact⟩
    have hmem : x.id ∈ (slot s.tables.oneTimeTokens token.userId token.purpose).map
        OneTimeToken.id :=
      mem_map_of_mem (mem_filter.mpr ⟨hx, decide_eq_true ⟨huser, hpurpose⟩⟩)
    refine ⟨fun y hy hid => hvoid.dead y hy (hid ▸ hmem), fun t ht y huses hid => ?_⟩
    obtain ⟨hy, hlive⟩ := open_of_uses (hs₂.fits t ht) huses
    rw [hvoid.dead y hy (hid ▸ hmem)] at hlive
    exact nomatch hlive

/-- A token is issued, the password is reset by it, and then somebody tries it again. -/
theorem issued_last_reset : ∃ s₀ s₁ s, (system .plain).ReachableBy SafeIssue s₀ ∧
      (system .plain).step s₀ (.step 1) = some s₁ ∧
      (system .plain).Steps (fun _ _ => True) s₁ s ∧ s.tasks[2]? = some (.done .ended) ∧
      (∃ x ∈ s₀.tables.oneTimeTokens, x.id = 20 ∧ x.live = true ∧
        (slot s₀.tables.oneTimeTokens x.userId x.purpose).getLast? = some x) ∧
      ∀ y ∈ s.tables.oneTimeTokens, y.id = 20 → y.live = false := by
  have hrun : ((system .plain).runBy SafeIssue ⟨⟨[], [], []⟩, []⟩
      [.register 1 "a" "p" ⟨10, "t0"⟩ 100 0, .start (.requestPasswordReset "a" ⟨20, "r0"⟩ 1),
        .step 0, .step 0, .step 0, .start (.resetPassword "r0" "q" 2), .step 1, .step 1, .step 1,
        .step 1, .step 1, .step 1]).any (fun s₀ =>
      decide (s₀.tasks[1]? = some (.revoking (.reset ⟨20, 1, .passwordReset, "r0",
        1 + PasswordResetTTL, false, false⟩ "q" [20] []) [100] [] [10])) &&
      decide (SafeIssue s₀ (.step 1)) &&
      s₀.tables.oneTimeTokens.any (fun x => decide (x = ⟨20, 1, .passwordReset, "r0",
        1 + PasswordResetTTL, false, false⟩)) &&
      ((system .plain).step s₀ (.step 1)).any fun s₁ =>
        ((system .plain).run s₁ [.start (.resetPassword "r0" "z" 3), .step 2]).any fun s =>
          decide (s.tasks[2]? = some (.done .ended))) = true := by
    decide +kernel
  obtain ⟨s₀, hreachable, htest⟩ := exists_of_runBy hrun rfl
  obtain ⟨htest, hany⟩ := (Bool.and_eq_true _ _).mp htest
  obtain ⟨htest, htoken⟩ := (Bool.and_eq_true _ _).mp htest
  obtain ⟨htask, hsafe⟩ := (Bool.and_eq_true _ _).mp htest
  obtain ⟨x, hx, htoken⟩ := any_eq_true.mp htoken
  obtain rfl := of_decide_eq_true htoken
  obtain ⟨s₁, hs₁, hany⟩ := (Option.any_eq_true _ _).mp hany
  obtain ⟨s, hs, hended⟩ := (Option.any_eq_true _ _).mp hany
  have hsteps := steps_of_run (P := fun _ _ => True) (fun _ _ _ => trivial) hs
  obtain ⟨hlast, -, -, -, -, hvoid⟩ := issued_last hreachable
  exact ⟨s₀, s₁, s, hreachable, hs₁, hsteps, of_decide_eq_true hended,
    ⟨_, hx, rfl, rfl, hlast _ hx rfl⟩, (hvoid 1 _ _ _ _ _ _ s₁ s (of_decide_eq_true htask)
      (of_decide_eq_true hsafe) hs₁ hsteps _ hx rfl rfl).1⟩

/-- **Two calls issue at once.** Each deletes what was there before both, and then there are
two good tokens. -/
theorem two_tokens_issued : ∃ s, (system .plain).Reachable s ∧
      ∃ x ∈ s.tables.oneTimeTokens, ∃ y ∈ s.tables.oneTimeTokens, x ≠ y ∧
        x.userId = y.userId ∧ x.purpose = y.purpose ∧ x.live = true ∧ y.live = true ∧
        1 < x.expiresAt ∧ 1 < y.expiresAt := by
  have hrun : ((system .plain).run ⟨⟨[], [], []⟩, []⟩
      [.register 1 "a" "p" ⟨10, "t0"⟩ 100 0, .start (.requestPasswordReset "a" ⟨20, "r0"⟩ 1),
        .start (.requestPasswordReset "a" ⟨21, "r1"⟩ 1), .step 0, .step 0, .step 1, .step 1,
        .step 0, .step 1]).any (fun s =>
      s.tables.oneTimeTokens.any fun x => s.tables.oneTimeTokens.any fun y =>
        decide (x ≠ y ∧ x.userId = y.userId ∧ x.purpose = y.purpose ∧ x.live = true ∧
          y.live = true ∧ 1 < x.expiresAt ∧ 1 < y.expiresAt)) = true := by
    decide +kernel
  obtain ⟨s, hreach, htest⟩ := exists_of_run hrun rfl
  obtain ⟨x, hx, htest⟩ := any_eq_true.mp htest
  obtain ⟨y, hy, htest⟩ := any_eq_true.mp htest
  exact ⟨s, hreach, x, hx, y, hy, of_decide_eq_true htest⟩

end AuthService

end Hibari
