import Hibari.AuthRows

/-!
# Families of refresh tokens

Whatever calls run at once, a commit does one of four things to the refresh tokens
(`TokenMove`): nothing, it starts a family, it marks a token and adds the next one of its
family, or it revokes some. So the tokens of a family are always a chain (`TokenChain`): each
was exchanged for the next, and only the last of them may still be used.
-/

namespace Hibari

open List Option RefreshToken AuthTables

/-- **What a commit does to the refresh tokens.** -/
inductive TokenMove (l : List RefreshToken) : List RefreshToken → Prop
  | same : TokenMove l l
  | session {t : RefreshToken} : (∀ x ∈ l, x.familyId ≠ t.familyId) → t.rotatedFrom = none →
      t.revoked = none → TokenMove l (l ++ [t])
  | rotate {rt t : RefreshToken} : rt ∈ l → rt.revoked = none → t.familyId = rt.familyId →
      t.userId = rt.userId → t.resets = rt.resets → t.rotatedFrom = some rt.id →
      t.revoked = none → TokenMove l (l.map (RefreshToken.revokedIn [rt.id] .rotated) ++ [t])
  | revoke {ids : List Ulid} {reason : RevokedReason} : reason ≠ .rotated →
      (∀ k ∈ ids, ∃ t ∈ l, t.id = k ∧ t.revoked = none) →
      TokenMove l (l.map (RefreshToken.revokedIn ids reason))

/-- The tokens of a family, in the order in which they were committed. -/
def family (l : List RefreshToken) (familyId : Ulid) : List RefreshToken :=
  l.filter fun t => decide (t.familyId = familyId)

/-- **A chain of tokens**: each but the last was exchanged, and for the next one. -/
structure TokenChain (l : List RefreshToken) : Prop where
  linked : l.IsChain fun a b => a.revoked = some .rotated ∧ b.rotatedFrom = some a.id
  first : ∀ t ∈ l.head?, t.rotatedFrom = none
  last : ∀ t ∈ l.getLast?, t.revoked ≠ some .rotated

/-- **The families**: each is a chain, and of one user who started it with one password. -/
structure Families (l : List RefreshToken) : Prop where
  chain : ∀ familyId, TokenChain (family l familyId)
  user : ∀ t ∈ l, ∀ t' ∈ l, t.familyId = t'.familyId → t.userId = t'.userId ∧ t.resets = t'.resets

section Chains

variable {l : List RefreshToken} {t rt : RefreshToken} {familyId : Ulid}
  {g : RefreshToken → RefreshToken}

theorem mem_family : t ∈ family l familyId ↔ t ∈ l ∧ t.familyId = familyId := by
  unfold family
  rw [mem_filter, decide_eq_true_iff]

theorem family_append_self (h : t.familyId = familyId) :
    family (l ++ [t]) familyId = family l familyId ++ [t] := by
  unfold family
  rw [filter_append, filter_singleton, decide_eq_true h]
  rfl

theorem family_append_ne (h : t.familyId ≠ familyId) :
    family (l ++ [t]) familyId = family l familyId := by
  unfold family
  rw [filter_append, filter_singleton, decide_eq_false h]
  exact append_nil _

/-- Tokens that are written stay in their family. -/
theorem family_map (hg : ∀ t, (g t).familyId = t.familyId) :
    family (l.map g) familyId = (family l familyId).map g := by
  unfold family
  rw [List.filter_map]
  congr 1
  refine filter_congr fun t _ => ?_
  show decide ((g t).familyId = familyId) = _
  rw [hg]

theorem TokenChain.nil : TokenChain [] where
  linked := isChain_nil
  first t ht := nomatch ht
  last t ht := nomatch ht

theorem TokenChain.singleton (hfrom : t.rotatedFrom = none) (hlive : t.revoked = none) :
    TokenChain [t] where
  linked := isChain_singleton t
  first x hx := by
    rw [← some.inj hx]
    exact hfrom
  last x hx := by
    have hx : some t = some x := hx
    rw [← some.inj hx, hlive]
    simp

/-- **A token that was not exchanged is the last of its chain.** -/
theorem TokenChain.eq_concat (h : TokenChain l) (ht : t ∈ l) (hnot : t.revoked ≠ some .rotated) :
    ∃ earlier, l = earlier ++ [t] := by
  obtain ⟨earlier, later, rfl⟩ := append_of_mem ht
  cases later with
  | nil => exact ⟨earlier, rfl⟩
  | cons =>
    have hlinked := (isChain_append_cons_cons.mp h.linked).2.1
    exact absurd hlinked.1 hnot

/-- All the tokens before another one were exchanged. -/
theorem TokenChain.rotated {earlier : List RefreshToken} (h : TokenChain (earlier ++ [t])) :
    ∀ x ∈ earlier, x.revoked = some .rotated := by
  intro x hx
  obtain ⟨front, back, rfl⟩ := append_of_mem hx
  obtain ⟨y, rest, hy⟩ : ∃ y rest, back ++ [t] = y :: rest :=
    exists_cons_of_ne_nil (by simp)
  have hlinked := h.linked
  rw [append_assoc, cons_append, hy] at hlinked
  exact (isChain_append_cons_cons.mp hlinked).2.1.1

variable (h : TokenChain l)
include h

/-- Writing tokens keeps the chain, if what was exchanged stays so. -/
theorem TokenChain.map (hid : ∀ t, (g t).id = t.id) (hfrom : ∀ t, (g t).rotatedFrom = t.rotatedFrom)
    (hrotated : ∀ t ∈ l, t.revoked = some .rotated → (g t).revoked = some .rotated) :
    (l.map g).IsChain (fun a b => a.revoked = some .rotated ∧ b.rotatedFrom = some a.id) ∧
      ∀ t ∈ (l.map g).head?, t.rotatedFrom = none := by
  constructor
  · refine (isChain_map g).mpr (h.linked.imp_of_mem_imp fun a b ha _ hab => ⟨?_, ?_⟩)
    · exact hrotated a ha hab.1
    · rw [hfrom, hid]
      exact hab.2
  · intro t ht
    rw [head?_map] at ht
    obtain ⟨x, hx, rfl⟩ := map_eq_some_iff.mp ht
    rw [hfrom]
    exact h.first x hx

/-- **A token is exchanged**: its chain has one more. -/
theorem TokenChain.rotate (hrt : rt ∈ l) (hlive : rt.revoked = none)
    (hfrom : t.rotatedFrom = some rt.id) (hnew : t.revoked = none) :
    TokenChain (l.map (RefreshToken.revokedIn [rt.id] .rotated) ++ [t]) := by
  obtain ⟨earlier, rfl⟩ := h.eq_concat hrt (by rw [hlive]; simp)
  obtain ⟨hlinked, hfirst⟩ := h.map (g := RefreshToken.revokedIn [rt.id] .rotated)
    (fun x => x.revokedIn_id) (fun x => x.revokedIn_rotatedFrom) fun x _ hx => by
      unfold RefreshToken.revokedIn
      split
      · rfl
      · exact hx
  have hmarked : rt.revokedIn [rt.id] .rotated = { rt with revoked := some .rotated } :=
    revokedIn_of_mem (.head _)
  refine ⟨isChain_append.mpr ⟨hlinked, isChain_singleton t, fun x hx y hy => ?_⟩,
    fun x hx => ?_, fun x hx => ?_⟩
  · rw [map_append, map_singleton, getLast?_concat, hmarked] at hx
    rw [← some.inj hx, ← some.inj hy]
    exact ⟨rfl, hfrom⟩
  · refine hfirst x ?_
    rw [head?_append] at hx
    cases hhead : (List.map (RefreshToken.revokedIn [rt.id] .rotated) (earlier ++ [rt])).head? with
    | none => simp at hhead
    | some =>
      rw [hhead] at hx
      exact hx
  · rw [getLast?_concat] at hx
    rw [← some.inj hx, hnew]
    simp

/-- **Tokens are revoked** that are still good. -/
theorem TokenChain.revoke {ids : List Ulid} {reason : RevokedReason}
    (hreason : reason ≠ .rotated) (hids : ∀ t ∈ l, t.id ∈ ids → t.revoked = none) :
    TokenChain (l.map (RefreshToken.revokedIn ids reason)) := by
  obtain ⟨hlinked, hfirst⟩ := h.map (g := RefreshToken.revokedIn ids reason)
    (fun x => x.revokedIn_id) (fun x => x.revokedIn_rotatedFrom) fun x hx hrotated => by
      by_cases hmem : x.id ∈ ids
      · rw [hids x hx hmem] at hrotated
        cases hrotated
      · rw [revokedIn_of_notMem hmem]
        exact hrotated
  refine ⟨hlinked, hfirst, fun t ht => ?_⟩
  rw [getLast?_map] at ht
  obtain ⟨x, hx, rfl⟩ := map_eq_some_iff.mp ht
  unfold RefreshToken.revokedIn
  split
  · exact fun heq => hreason (some.inj heq)
  · exact h.last x hx

end Chains

namespace TokenMove

variable {l l' : List RefreshToken} {t : RefreshToken}

/-- **Families stay chains**, whatever a commit does. -/
theorem families (hmove : TokenMove l l') (h : Families l) (hids : (l.map RefreshToken.id).Nodup) :
    Families l' := by
  have heq : ∀ x ∈ l, ∀ y ∈ l, x.id = y.id → x = y := fun x hx y hy =>
    inj_on_of_nodup_map hids hx hy
  cases hmove with
  | same => exact h
  | @session t hnew hfrom hlive =>
    refine ⟨fun familyId => ?_, fun x hx y hy hxy => ?_⟩
    · by_cases hmine : t.familyId = familyId
      · have hnone : family l familyId = [] := by
          refine filter_eq_nil_iff.mpr fun x hx => ?_
          have hne := hnew x hx
          rw [hmine] at hne
          simpa using hne
        rw [family_append_self hmine, hnone]
        exact .singleton hfrom hlive
      · rw [family_append_ne hmine]
        exact h.chain familyId
    · rcases mem_append.mp hx with hx | hx
      · rcases mem_append.mp hy with hy | hy
        · exact h.user x hx y hy hxy
        · rw [mem_singleton.mp hy] at hxy
          exact absurd hxy (hnew x hx)
      · rcases mem_append.mp hy with hy | hy
        · rw [mem_singleton.mp hx] at hxy
          exact absurd hxy.symm (hnew y hy)
        · rw [mem_singleton.mp hx, mem_singleton.mp hy]
          exact ⟨rfl, rfl⟩
  | @rotate rt t hrt hlive hfamily huser hresets hfrom hnew =>
    have hlike : ∀ x ∈ l.map (RefreshToken.revokedIn [rt.id] .rotated) ++ [t], ∃ y ∈ l,
        x.familyId = y.familyId ∧ x.userId = y.userId ∧ x.resets = y.resets := by
      intro x hx
      rcases mem_append.mp hx with hx | hx
      · obtain ⟨y, hy, rfl⟩ := List.mem_map.mp hx
        exact ⟨y, hy, y.revokedIn_familyId, y.revokedIn_userId, y.revokedIn_resets⟩
      · rw [mem_singleton.mp hx]
        exact ⟨rt, hrt, hfamily, huser, hresets⟩
    refine ⟨fun familyId => ?_, fun x hx y hy hxy => ?_⟩
    · by_cases hmine : rt.familyId = familyId
      · rw [family_append_self (hfamily.trans hmine), family_map fun x => x.revokedIn_familyId]
        exact (h.chain familyId).rotate (mem_family.mpr ⟨hrt, hmine⟩) hlive hfrom hnew
      · rw [family_append_ne fun heq => hmine (hfamily.symm.trans heq),
          family_map fun x => x.revokedIn_familyId]
        have hkept : (family l familyId).map (RefreshToken.revokedIn [rt.id] .rotated)
            = family l familyId := by
          refine (map_congr_left fun x hx => ?_).trans (List.map_id _)
          refine revokedIn_of_notMem fun hmem => ?_
          obtain ⟨hmem', hfamily'⟩ := mem_family.mp hx
          rw [heq x hmem' rt hrt (mem_singleton.mp hmem)] at hfamily'
          exact hmine hfamily'
        rw [hkept]
        exact h.chain familyId
    · obtain ⟨x', hx', hxf, hxu, hxr⟩ := hlike x hx
      obtain ⟨y', hy', hyf, hyu, hyr⟩ := hlike y hy
      rw [hxf, hyf] at hxy
      rw [hxu, hyu, hxr, hyr]
      exact h.user x' hx' y' hy' hxy
  | @revoke ids reason hreason hids' =>
    refine ⟨fun familyId => ?_, fun x hx y hy hxy => ?_⟩
    · rw [family_map fun x => x.revokedIn_familyId]
      refine (h.chain familyId).revoke hreason fun x hx hmem => ?_
      obtain ⟨y, hy, hid, hlive⟩ := hids' _ hmem
      rw [heq x (mem_family.mp hx).1 y hy hid.symm]
      exact hlive
    · obtain ⟨x', hx', rfl⟩ := List.mem_map.mp hx
      obtain ⟨y', hy', rfl⟩ := List.mem_map.mp hy
      rw [revokedIn_familyId, revokedIn_familyId] at hxy
      rw [revokedIn_userId, revokedIn_userId, revokedIn_resets, revokedIn_resets]
      exact h.user x' hx' y' hy' hxy

/-- What does not change about a token. -/
structure SameToken (t t' : RefreshToken) : Prop where
  id : t'.id = t.id
  familyId : t'.familyId = t.familyId
  userId : t'.userId = t.userId
  tokenHash : t'.tokenHash = t.tokenHash
  resets : t'.resets = t.resets

variable (hmove : TokenMove l l')
include hmove

/-- **A token stays**, and as it is once it is revoked. -/
theorem stays (hids : (l.map RefreshToken.id).Nodup) (ht : t ∈ l) :
    ∃ t' ∈ l', SameToken t t' ∧ (t.revoked ≠ none → t' = t) := by
  have hrevoked : ∀ (ids : List Ulid) (reason : RevokedReason),
      (∀ k ∈ ids, ∃ x ∈ l, x.id = k ∧ x.revoked = none) →
      SameToken t (t.revokedIn ids reason) ∧ (t.revoked ≠ none → t.revokedIn ids reason = t) := by
    intro ids reason hlive
    refine ⟨⟨t.revokedIn_id, t.revokedIn_familyId, t.revokedIn_userId, t.revokedIn_tokenHash,
      t.revokedIn_resets⟩, fun hdead => revokedIn_of_notMem fun hmem => ?_⟩
    obtain ⟨x, hx, hid, hxlive⟩ := hlive _ hmem
    rw [inj_on_of_nodup_map hids hx ht hid] at hxlive
    exact hdead hxlive
  cases hmove with
  | same => exact ⟨t, ht, ⟨rfl, rfl, rfl, rfl, rfl⟩, fun _ => rfl⟩
  | session =>
    exact ⟨t, mem_append_left _ ht, ⟨rfl, rfl, rfl, rfl, rfl⟩, fun _ => rfl⟩
  | @rotate rt x hrt hlive hfamily huser hresets hfrom hnew =>
    refine ⟨_, mem_append_left _ (List.mem_map_of_mem ht), hrevoked _ _ fun k hk => ?_⟩
    exact ⟨rt, hrt, (mem_singleton.mp hk).symm, hlive⟩
  | revoke _ hlive => exact ⟨_, List.mem_map_of_mem ht, hrevoked _ _ hlive⟩

/-- **Where a token comes from** that is good: it was good before, or it starts a family, or one
that was good was exchanged for it. -/
theorem comes (ht : t ∈ l') (hlive : t.revoked = none) :
    t ∈ l ∨ (∀ x ∈ l, x.familyId ≠ t.familyId) ∨
      ∃ rt ∈ l, rt.revoked = none ∧ t.familyId = rt.familyId ∧ t.userId = rt.userId ∧
        t.resets = rt.resets ∧ { rt with revoked := some .rotated } ∈ l' := by
  have hmap : ∀ (ids : List Ulid) (reason : RevokedReason),
      t ∈ l.map (RefreshToken.revokedIn ids reason) → t ∈ l := by
    intro ids reason hmem
    obtain ⟨x, hx, rfl⟩ := List.mem_map.mp hmem
    obtain ⟨-, -, hsame⟩ := of_revokedIn_none hlive
    rw [hsame]
    exact hx
  cases hmove with
  | same => exact .inl ht
  | @session x hnew hfrom hxlive =>
    rcases mem_append.mp ht with ht | ht
    · exact .inl ht
    · rw [mem_singleton.mp ht]
      exact .inr (.inl hnew)
  | @rotate rt x hrt hrtlive hfamily huser hresets hfrom hnew =>
    rcases mem_append.mp ht with ht | ht
    · exact .inl (hmap _ _ ht)
    · rw [mem_singleton.mp ht]
      refine .inr (.inr ⟨rt, hrt, hrtlive, hfamily, huser, hresets, ?_⟩)
      refine mem_append_left _ (List.mem_map.mpr ⟨rt, hrt, ?_⟩)
      exact revokedIn_of_mem (.head _)
  | revoke => exact .inl (hmap _ _ ht)

/-- **A family that has ended stays so.** -/
theorem ended {familyId : Ulid} (hex : ∃ t ∈ l, t.familyId = familyId)
    (hdead : ∀ t ∈ l, t.familyId = familyId → t.revoked ≠ none) :
    ∀ t ∈ l', t.familyId = familyId → t.revoked ≠ none := by
  intro t ht hfamily hlive
  obtain ⟨x, hx, hxfamily⟩ := hex
  rcases hmove.comes ht hlive with hold | hnew | ⟨rt, hrt, hrtlive, hrtfamily, -⟩
  · exact hdead t hold hfamily hlive
  · exact hnew x hx (hxfamily.trans hfamily.symm)
  · exact hdead rt hrt (hrtfamily.symm.trans hfamily) hrtlive

end TokenMove

namespace AuthService

variable {h : AuthHashes} {s s' : AuthService} {a : AuthAction}

/-- **A commit is one of the four.** -/
theorem Commits.move (hc : Commits h s a s') (hs : s.Sound h) :
    TokenMove s.tables.refreshTokens s'.tables.refreshTokens := by
  cases hc with
  | @rotate i raw now new rt d hi hd =>
    obtain ⟨hrt, hlive, -⟩ := hs.fits _ (mem_of_getElem? hi)
    obtain ⟨rfl, -⟩ := rotate_eq_some hd
    exact .rotate hrt hlive rfl rfl rfl rfl rfl
  | @revoke i r families got hi =>
    obtain ⟨-, hgot⟩ := hs.fits _ (mem_of_getElem? hi)
    have hreason : r.reason ≠ .rotated := by
      cases r <;> simp [Revocation.reason]
    show TokenMove _ (s.tables.revoke r got).refreshTokens
    rw [revoke_refreshTokens]
    refine .revoke hreason fun k hk => ?_
    obtain ⟨t, ht, hid, hhit⟩ := hgot k hk
    exact ⟨t, ht, hid, isNone_iff_eq_none.mp ((Bool.and_eq_true _ _).mp hhit).2⟩
  | logIn _ hd =>
    obtain ⟨rfl, -, hnew⟩ := createSession_eq_some hd
    exact .session hnew rfl rfl
  | issue _ hd =>
    obtain ⟨rfl, -⟩ := issue_eq_some hd
    exact .same
  | register hd hsession =>
    obtain ⟨rfl, -⟩ := createUser_eq_some hd
    obtain ⟨rfl, -, hnew⟩ := createSession_eq_some hsession
    exact .session hnew rfl rfl
  | _ => exact .same

theorem act_move (hs : s.Sound h) (hact : act h s a = some s') :
    TokenMove s.tables.refreshTokens s'.tables.refreshTokens := by
  rcases act_cases hact with hc | ⟨call, -, rfl⟩ | ⟨i, t, t', -, -, -, rfl, -⟩
  · exact hc.move hs
  · exact .same
  · exact .same

/-- **Calls that run at once, and the families that they leave.** -/
structure Steady (h : AuthHashes) (s : AuthService) : Prop where
  sound : s.Sound h
  families : Families s.tables.refreshTokens

theorem Steady.act (hs : s.Steady h) (hact : act h s a = some s') : s'.Steady h where
  sound := hs.sound.act hact
  families := (act_move hs.sound hact).families hs.families hs.sound.keyed.ids

theorem steady_of_init (hinit : (system h).init s) : s.Steady h where
  sound := sound_of_init hinit
  families := by
    rw [show s = ⟨⟨[], [], []⟩, []⟩ from hinit]
    exact ⟨fun _ => .nil, nofun⟩

end AuthService

end Hibari
