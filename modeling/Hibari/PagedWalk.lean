import Mathlib

/-!
# Walking a sorted list page by page

A page is some consecutive entries of a list that is sorted by a key, with whether there are more.
One asks for the last few entries below a bound (`Paged.older`), or the first few above one
(`Paged.newer`), and goes on from the first, or the last, entry of the page as long as there are
more (`Paged.walk`).

`Paged.walk_eq` says what a walk comes to, whatever the pages are of, if each of them splits off a
piece of what is left. For pages of a sorted list that is all entries below the bound, or above
it, each of them once (`Paged.walk_older`, `Paged.walk_newer`) – and from the ends of a page
around an entry, what the page leaves out (`Paged.older_append`, `Paged.append_newer`).
-/

namespace Paged

open List

variable {α β κ : Type*}

/-- **A walk**: pages from a bound on, as long as there are more, if the steps suffice. -/
def walk (page : β → List α × Bool) (next : List α → Option β) : ℕ → β → Option (List (List α))
  | 0, _ => none
  | steps + 1, b =>
    if (page b).2 then
      (next (page b).1).bind fun b' => (walk page next steps b').map ((page b).1 :: ·)
    else some [(page b).1]

/-- **What a walk comes to.** Each page is what is left, or a piece of it after which there is
less. -/
theorem walk_eq {page : β → List α × Bool} {next : List α → Option β}
    {join : List α → List α → List α} {left : β → List α} (hnil : ∀ p, join p [] = p)
    (hlast : ∀ b, (page b).2 = false → (page b).1 = left b)
    (hmore : ∀ b, (page b).2 = true → ∃ b', next (page b).1 = some b' ∧
      join (page b).1 (left b') = left b ∧ (left b').length < (left b).length)
    {steps : ℕ} {b : β} (hsteps : (left b).length < steps) :
    ∃ pages, walk page next steps b = some pages ∧ pages.foldr join [] = left b ∧
      ∀ p ∈ pages, ∃ b', (page b').1 = p := by
  induction steps generalizing b with
  | zero => exact absurd hsteps (Nat.not_lt_zero _)
  | succ _ ih =>
    cases hpage : (page b).2 with
    | false =>
      refine ⟨[(page b).1], by rw [walk, hpage]; rfl, (hnil _).trans (hlast b hpage), ?_⟩
      exact fun p hp => ⟨b, (mem_singleton.mp hp).symm⟩
    | true =>
      obtain ⟨b', hnext, hjoin, hless⟩ := hmore b hpage
      obtain ⟨pages, hwalk, hfold, hpages⟩ := ih (hless.trans_le (Nat.le_of_lt_succ hsteps))
      refine ⟨(page b).1 :: pages, ?_, ?_, fun p hp => ?_⟩
      · rw [walk, hpage, if_pos rfl, hnext, Option.bind_some, hwalk]
        rfl
      · rw [foldr_cons, hfold]
        exact hjoin
      · rcases mem_cons.mp hp with rfl | hp
        · exact ⟨b, rfl⟩
        · exact hpages p hp

theorem flatten_reverse_eq_foldr (pages : List (List α)) :
    pages.reverse.flatten = pages.foldr (fun p rest => rest ++ p) [] := by
  induction pages with
  | nil => rfl
  | cons _ _ ih =>
    rw [reverse_cons, flatten_append, flatten_singleton, foldr_cons, ih]

theorem flatten_eq_foldr_append (pages : List (List α)) :
    pages.flatten = pages.foldr (fun p rest => p ++ rest) [] := by
  induction pages with
  | nil => rfl
  | cons _ _ ih => rw [flatten_cons, foldr_cons, ih]

section Sorted

variable [LinearOrder κ] (all : List α) (key : α → κ) (limit : ℕ)
  {b : WithTop κ} {a : κ} {post pre rest : List α}

/-- The entries below a bound. -/
def below (b : WithTop κ) : List α := all.filter fun x => decide ((key x : WithTop κ) < b)

/-- The entries above a bound. -/
def above (a : κ) : List α := all.filter fun x => decide (a < key x)

/-- **A page of older entries**: the last ones below a bound, and whether there are more. -/
def older (b : WithTop κ) : List α × Bool :=
  (((below all key b).reverse.take limit).reverse, decide (limit < (below all key b).length))

/-- **A page of newer entries**: the first ones above a bound, and whether there are more. -/
def newer (a : κ) : List α × Bool :=
  ((above all key a).take limit, decide (limit < (above all key a).length))

/-- Where older pages go on: at the first entry. -/
def first (page : List α) : Option (WithTop κ) := page.head?.map fun x => (key x : WithTop κ)

/-- Where newer pages go on: at the last entry. -/
def last (page : List α) : Option κ := page.getLast?.map key

variable {all key limit}

theorem older_fst (b : WithTop κ) : (older all key limit b).1 =
    (below all key b).drop ((below all key b).length - limit) := by
  show ((below all key b).reverse.take limit).reverse = _
  rw [take_reverse, reverse_reverse]

theorem length_older_le (b : WithTop κ) : (older all key limit b).1.length ≤ limit := by
  rw [older_fst, length_drop]
  omega

theorem length_newer_le (a : κ) : (newer all key limit a).1.length ≤ limit :=
  length_take_le _ _

/-- The entries of a list below a bound that come before a key in it. -/
theorem below_of_le {b' : WithTop κ} (h : b' ≤ b) :
    below all key b' = (below all key b).filter fun x => decide ((key x : WithTop κ) < b') := by
  unfold below
  rw [filter_filter]
  refine filter_congr fun x _ => ?_
  rw [eq_comm, Bool.and_eq_left_iff_imp]
  exact fun hx => decide_eq_true ((of_decide_eq_true hx).trans_le h)

theorem above_of_le {a' : κ} (h : a ≤ a') :
    above all key a' = (above all key a).filter fun x => decide (a' < key x) := by
  unfold above
  rw [filter_filter]
  refine filter_congr fun x _ => ?_
  rw [eq_comm, Bool.and_eq_left_iff_imp]
  exact fun hx => decide_eq_true (h.trans_lt (of_decide_eq_true hx))

variable (hall : all.Pairwise fun x y => key x < key y)

include hall

/-- Below an entry is what comes before it. -/
theorem below_entry {f : α}
    (h : below all key b = pre ++ f :: post) : below all key (key f) = pre := by
  have hsorted : (pre ++ f :: post).Pairwise fun x y => key x < key y := h ▸ hall.filter _
  obtain ⟨-, hpost, hpre⟩ := pairwise_append.mp hsorted
  have hf : f ∈ below all key b := h ▸ mem_append_right _ (.head _)
  rw [below_of_le (of_decide_eq_true (mem_filter.mp hf).2).le, h, filter_append,
    filter_eq_self.mpr, filter_eq_nil_iff.mpr, append_nil]
  · intro x hx hlt
    have hlt : key x < key f := WithTop.coe_lt_coe.mp (of_decide_eq_true hlt)
    rcases mem_cons.mp hx with rfl | hx
    · exact lt_irrefl _ hlt
    · exact lt_asymm hlt ((pairwise_cons.mp hpost).1 x hx)
  · exact fun x hx => decide_eq_true (WithTop.coe_lt_coe.mpr (hpre x hx f (.head _)))

/-- Above an entry is what comes after it. -/
theorem above_entry {l : α}
    (h : above all key a = pre ++ l :: post) : above all key (key l) = post := by
  have hsorted : (pre ++ l :: post).Pairwise fun x y => key x < key y := h ▸ hall.filter _
  obtain ⟨-, hpost, hpre⟩ := pairwise_append.mp hsorted
  have hl : l ∈ above all key a := h ▸ mem_append_right _ (.head _)
  rw [above_of_le (of_decide_eq_true (mem_filter.mp hl).2).le, h, filter_append,
    filter_eq_nil_iff.mpr, nil_append, filter_cons_of_neg, filter_eq_self.mpr]
  · exact fun x hx => decide_eq_true ((pairwise_cons.mp hpost).1 x hx)
  · exact fun hlt => lt_irrefl _ (of_decide_eq_true hlt)
  · exact fun x hx hlt => lt_asymm (of_decide_eq_true hlt) (hpre x hx l (.head _))

/-- Pages of older entries, of which there are more, go on where the page begins. -/
theorem older_append_of_ne_nil (hne : (older all key limit b).1 ≠ []) :
    ∃ f, first key (older all key limit b).1 = some f ∧
      below all key f ++ (older all key limit b).1 = below all key b ∧
      (below all key f).length < (below all key b).length := by
  have hsplit : (below all key b).take ((below all key b).length - limit) ++
      (older all key limit b).1 = below all key b := by
    rw [older_fst, take_append_drop]
  obtain ⟨f, post, hpage⟩ := exists_cons_of_ne_nil hne
  rw [hpage] at hsplit ⊢
  have hbelow := below_entry hall hsplit.symm
  refine ⟨key f, rfl, by rw [hbelow, hsplit], ?_⟩
  rw [hbelow]
  exact (Nat.lt_add_of_pos_right (Nat.succ_pos _)).trans_eq
    ((length_append).symm.trans (congrArg List.length hsplit))

/-- Pages of newer entries go on where the page ends. -/
theorem append_newer_of_ne_nil (hne : (newer all key limit a).1 ≠ []) :
    ∃ l, last key (newer all key limit a).1 = some l ∧
      (newer all key limit a).1 ++ above all key l = above all key a ∧
      (above all key l).length < (above all key a).length := by
  have hsplit : (newer all key limit a).1 ++ (above all key a).drop limit = above all key a :=
    take_append_drop _ _
  obtain ⟨pre, l, hpage⟩ : ∃ pre l, (newer all key limit a).1 = pre ++ [l] :=
    ⟨_, _, (dropLast_append_getLast hne).symm⟩
  rw [hpage] at hsplit ⊢
  have habove := above_entry hall ((append_cons pre l _).trans hsplit).symm
  refine ⟨key l, ?_, by rw [habove, hsplit], ?_⟩
  · rw [last, getLast?_append_of_ne_nil _ (cons_ne_nil l [])]
    rfl
  · have hlength := congrArg List.length hsplit
    rw [length_append, length_append, length_singleton] at hlength
    rw [habove]
    omega

/-- **Walking back** from a bound: pages of at most as many entries as a page holds, and all
entries below the bound. -/
theorem walk_older (hlimit : 0 < limit) (b : WithTop κ) :
    ∃ pages, walk (older all key limit) (first key) ((below all key b).length + 1) b = some pages ∧
      pages.reverse.flatten = below all key b ∧ ∀ p ∈ pages, p.length ≤ limit := by
  have hlast : ∀ b, (older all key limit b).2 = false →
      (older all key limit b).1 = below all key b := by
    intro b hmore
    have hle : (below all key b).length ≤ limit := not_lt.mp (of_decide_eq_false hmore)
    rw [older_fst, Nat.sub_eq_zero_of_le hle, drop_zero]
  have hgoes : ∀ b, (older all key limit b).2 = true →
      ∃ f, first key (older all key limit b).1 = some f ∧
        below all key f ++ (older all key limit b).1 = below all key b ∧
        (below all key f).length < (below all key b).length := by
    intro b hmore
    have hlt : limit < (below all key b).length := of_decide_eq_true hmore
    refine older_append_of_ne_nil hall (ne_nil_of_length_pos ?_)
    rw [older_fst, length_drop]
    omega
  obtain ⟨pages, hwalk, hfold, hpages⟩ : ∃ pages, walk (older all key limit) (first key)
      ((below all key b).length + 1) b = some pages ∧
      pages.foldr (fun p rest => rest ++ p) [] = below all key b ∧
      ∀ p ∈ pages, ∃ b', (older all key limit b').1 = p :=
    walk_eq (fun p => nil_append p) hlast hgoes (Nat.lt_succ_self _)
  refine ⟨pages, hwalk, ?_, fun p hp => ?_⟩
  · rw [← hfold, flatten_reverse_eq_foldr]
  · obtain ⟨b', rfl⟩ := hpages p hp
    exact length_older_le b'

/-- **Walking forth** from a bound. -/
theorem walk_newer (hlimit : 0 < limit) (a : κ) :
    ∃ pages, walk (newer all key limit) (last key) ((above all key a).length + 1) a = some pages ∧
      pages.flatten = above all key a ∧ ∀ p ∈ pages, p.length ≤ limit := by
  have hlast : ∀ a, (newer all key limit a).2 = false →
      (newer all key limit a).1 = above all key a := fun a hmore =>
    take_of_length_le (not_lt.mp (of_decide_eq_false hmore))
  have hgoes : ∀ a, (newer all key limit a).2 = true →
      ∃ l, last key (newer all key limit a).1 = some l ∧
        (newer all key limit a).1 ++ above all key l = above all key a ∧
        (above all key l).length < (above all key a).length := by
    intro a hmore
    have hlt : limit < (above all key a).length := of_decide_eq_true hmore
    refine append_newer_of_ne_nil hall (ne_nil_of_length_pos ?_)
    show 0 < ((above all key a).take limit).length
    rw [length_take]
    omega
  obtain ⟨pages, hwalk, hfold, hpages⟩ : ∃ pages, walk (newer all key limit) (last key)
      ((above all key a).length + 1) a = some pages ∧
      pages.foldr (fun p rest => p ++ rest) [] = above all key a ∧
      ∀ p ∈ pages, ∃ a', (newer all key limit a').1 = p :=
    walk_eq (fun p => append_nil p) hlast hgoes (Nat.lt_succ_self _)
  refine ⟨pages, hwalk, ?_, fun p hp => ?_⟩
  · rw [← hfold, flatten_eq_foldr_append]
  · obtain ⟨a', rfl⟩ := hpages p hp
    exact length_newer_le a'

/-- **Before a page around an entry** is what its older part leaves out. -/
theorem older_append (t : α) (n : List α) :
    ∃ x, ((older all key limit (key t)).1 ++ t :: n).head? = some x ∧
      below all key (key x) ++ (older all key limit (key t)).1 = below all key (key t) := by
  cases hpage : (older all key limit (key t)).1 with
  | nil => exact ⟨t, rfl, append_nil _⟩
  | cons x post =>
    have hne : (older all key limit (key t)).1 ≠ [] := hpage ▸ cons_ne_nil x post
    obtain ⟨f, hfirst, hbelow, -⟩ := older_append_of_ne_nil hall hne
    rw [hpage] at hfirst hbelow
    obtain rfl : (key x : WithTop κ) = f := Option.some.inj hfirst
    exact ⟨x, rfl, hbelow⟩

/-- **After a page around an entry** is what its newer part leaves out. -/
theorem append_newer (t : α) (o : List α) :
    ∃ x, (o ++ t :: (newer all key limit (key t)).1).getLast? = some x ∧
      (newer all key limit (key t)).1 ++ above all key (key x) = above all key (key t) := by
  cases hpage : (newer all key limit (key t)).1 with
  | nil => exact ⟨t, getLast?_concat, nil_append _⟩
  | cons y post =>
    have hne : (newer all key limit (key t)).1 ≠ [] := hpage ▸ cons_ne_nil y post
    obtain ⟨l, hlast, habove, -⟩ := append_newer_of_ne_nil hall hne
    rw [hpage] at hlast habove
    obtain ⟨x, hx, rfl⟩ := Option.map_eq_some_iff.mp hlast
    refine ⟨x, ?_, habove⟩
    rw [append_cons, getLast?_append_of_ne_nil _ (cons_ne_nil y post)]
    exact hx

omit hall in
/-- There are more older entries if some are left out. -/
theorem older_snd_iff (h : rest ++ (older all key limit b).1 = below all key b) :
    (older all key limit b).2 = true ↔ rest ≠ [] := by
  have hlength := congrArg List.length h
  rw [length_append, older_fst, length_drop] at hlength
  show decide (limit < (below all key b).length) = true ↔ _
  rw [decide_eq_true_eq, ← length_pos_iff]
  omega

omit hall in
/-- There are more newer entries if some are left out. -/
theorem newer_snd_iff (h : (newer all key limit a).1 ++ rest = above all key a) :
    (newer all key limit a).2 = true ↔ rest ≠ [] := by
  have hlength := congrArg List.length h
  have hpage : (newer all key limit a).1.length = min limit (above all key a).length :=
    length_take
  rw [length_append, hpage] at hlength
  show decide (limit < (above all key a).length) = true ↔ _
  rw [decide_eq_true_eq, ← length_pos_iff]
  omega

end Sorted

/-! ## Pages that partition a list -/

section Law

variable [LinearOrder κ] (all : List α) (key : α → κ) (limit : ℕ)

/-- **Pages partition a list**: a walk back from any bound comes to the entries below it, and one
forth to those above it, in pages of no more than a page holds. -/
structure Partitions (older : WithTop κ → List α × Bool) (newer : κ → List α × Bool) : Prop where
  ascending : all.Pairwise fun x y => key x < key y
  back : ∀ b, ∃ steps pages, walk older (first key) steps b = some pages ∧
    pages.reverse.flatten = below all key b ∧ ∀ p ∈ pages, p.length ≤ limit
  forth : ∀ a, ∃ steps pages, walk newer (last key) steps a = some pages ∧
    pages.flatten = above all key a ∧ ∀ p ∈ pages, p.length ≤ limit

/-- A page around an entry: the entry itself, and half of what is left of the page before it. -/
def around (t : α) : List α × Bool × Bool :=
  let o := older all key (min (limit / 2) (limit - 1)) (key t)
  let n := newer all key (limit - 1 - o.1.length) (key t)
  (o.1 ++ t :: n.1, o.2, n.2)

/-- **A page surrounds an entry**: it holds the entry once, what comes directly before it and
directly after it, in order, and no more than a page holds; it says on either side whether there
are entries outside of it; and walks back from its first entry and forth from its last one come to
those. -/
structure Surrounds (older : WithTop κ → List α × Bool) (newer : κ → List α × Bool) (t : α)
    (page : List α × Bool × Bool) : Prop where
  length_le : page.1.length ≤ limit
  ascending : page.1.Pairwise fun x y => key x < key y
  parts : ∃ o n x y back forth stepsBack stepsForth, page.1 = o ++ t :: n ∧
    page.1.head? = some x ∧ page.1.getLast? = some y ∧
    walk older (first key) stepsBack (key x) = some back ∧
    walk newer (last key) stepsForth (key y) = some forth ∧
    back.reverse.flatten ++ o = below all key (key t) ∧
    n ++ forth.flatten = above all key (key t) ∧
    (page.2.1 = true ↔ ∃ m ∈ all, key m < key x) ∧ (page.2.2 = true ↔ ∃ m ∈ all, key y < key m)

variable {all key limit}

theorem below_ne_nil_iff {b : κ} : below all key b ≠ [] ↔ ∃ m ∈ all, key m < b := by
  unfold below
  rw [Ne, filter_eq_nil_iff]
  push Not
  simp only [decide_eq_true_eq, WithTop.coe_lt_coe]

theorem above_ne_nil_iff {a : κ} : above all key a ≠ [] ↔ ∃ m ∈ all, a < key m := by
  unfold above
  rw [Ne, filter_eq_nil_iff]
  push Not
  simp only [decide_eq_true_eq]

variable (hall : all.Pairwise fun x y => key x < key y)
include hall

/-- **Pages of a sorted list partition it.** -/
theorem partitions_older_newer (hlimit : 0 < limit) :
    Partitions all key limit (older all key limit) (newer all key limit) :=
  ⟨hall, fun b => ⟨_, walk_older hall hlimit b⟩, fun a => ⟨_, walk_newer hall hlimit a⟩⟩

/-- **A page around an entry surrounds it**, whether or not it is in the list. -/
theorem surrounds_around (hlimit : 0 < limit)
    (t : α) : Surrounds all key limit (older all key limit) (newer all key limit) t
      (around all key limit t) := by
  unfold around
  set o := older all key (min (limit / 2) (limit - 1)) (key t) with ho
  set n := newer all key (limit - 1 - o.1.length) (key t) with hn
  have holder : o.1.length ≤ min (limit / 2) (limit - 1) := length_older_le _
  have hnewer : n.1.length ≤ limit - 1 - o.1.length := length_newer_le _
  obtain ⟨x, hx, hbefore⟩ : ∃ x, (o.1 ++ t :: n.1).head? = some x ∧
      below all key (key x) ++ o.1 = below all key (key t) := older_append hall t n.1
  obtain ⟨y, hy, hafter⟩ : ∃ y, (o.1 ++ t :: n.1).getLast? = some y ∧
      n.1 ++ above all key (key y) = above all key (key t) := append_newer hall t o.1
  refine ⟨?_, ?_, ?_⟩
  · show (o.1 ++ t :: n.1).length ≤ limit
    rw [length_append, length_cons]
    omega
  · have hbelow : ∀ m ∈ o.1, key m < key t := by
      intro m hm
      have hin : m ∈ below all key (key t) := hbefore ▸ mem_append_right _ hm
      exact WithTop.coe_lt_coe.mp (of_decide_eq_true (mem_filter.mp hin).2)
    have habove : ∀ m ∈ n.1, key t < key m := by
      intro m hm
      have hin : m ∈ above all key (key t) := hafter ▸ mem_append_left _ hm
      exact of_decide_eq_true (mem_filter.mp hin).2
    have hsorted : o.1.Pairwise fun x y => key x < key y :=
      (hbefore ▸ hall.filter _ : (below all key (key x) ++ o.1).Pairwise _).sublist
        (sublist_append_right _ _)
    have hsorted' : n.1.Pairwise fun x y => key x < key y :=
      (hall.filter _).sublist (take_sublist _ _)
    refine pairwise_append.mpr ⟨hsorted, pairwise_cons.mpr ⟨habove, hsorted'⟩, ?_⟩
    intro a ha b hb
    rcases mem_cons.mp hb with rfl | hb
    · exact hbelow a ha
    · exact (hbelow a ha).trans (habove b hb)
  · obtain ⟨back, hback, hflat, -⟩ := walk_older hall hlimit (key x : WithTop κ)
    obtain ⟨forth, hforth, hflat', -⟩ := walk_newer hall hlimit (key y)
    refine ⟨o.1, n.1, x, y, back, forth, _, _, rfl, hx, hy, hback, hforth, ?_, ?_, ?_, ?_⟩
    · rw [hflat, hbefore]
    · rw [hflat', hafter]
    · exact (older_snd_iff hbefore).trans below_ne_nil_iff
    · exact (newer_snd_iff hafter).trans above_ne_nil_iff

end Law

end Paged
