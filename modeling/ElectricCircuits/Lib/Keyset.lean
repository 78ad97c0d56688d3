import Mathlib.Algebra.Ring.Nat
import Mathlib.Data.List.Basic
import Mathlib.Order.Defs.LinearOrder

/-! Pages of an ordered set: what lies between the first and the last row of a page is in the page. -/
namespace Keyset
variable {α : Type*} (cmp : α → α → Ordering)

/-- `ORDER BY .. OFFSET .. LIMIT ..` over the rows of a set, which the order tells apart. -/
def IsPage (S : α → Prop) (offset limit : ℕ) (rows : List α) : Prop :=
  ∃ all : List α, all.Pairwise (fun a b => cmp a b = .lt) ∧ (∀ r, r ∈ all ↔ S r) ∧
    rows = (all.drop offset).take limit

/-- A page, and the rows that are skipped before it and left after it. -/
structure Split (S : α → Prop) (offset limit : ℕ) (pre rows post : List α) : Prop where
  sorted : (pre ++ (rows ++ post)).Pairwise fun a b => cmp a b = .lt
  mem : ∀ r, r ∈ pre ++ (rows ++ post) ↔ S r
  skipped : offset = 0 → pre = []
  left : rows.length < limit → post = []

variable {cmp} {S : α → Prop} {offset limit : ℕ} {rows : List α}

lemma IsPage.split (h : IsPage cmp S offset limit rows) : ∃ pre post, Split cmp S offset limit pre rows post := by
  obtain ⟨all,hsorted,hmem,rfl⟩ := h
  have hall : all.take offset ++ ((all.drop offset).take limit ++ (all.drop offset).drop limit) = all := by
    rw [List.take_append_drop,List.take_append_drop]
  refine ⟨all.take offset,(all.drop offset).drop limit,hall.symm ▸ hsorted,fun r => hall.symm ▸ hmem r,?_,?_⟩
  · rintro rfl
    rfl
  · intro hshort
    rw [List.length_take] at hshort
    exact List.drop_eq_nil_of_le (by omega)

lemma IsPage.sorted (h : IsPage cmp S offset limit rows) : rows.Pairwise fun a b => cmp a b = .lt := by
  obtain ⟨pre,post,hs⟩ := h.split
  exact (List.pairwise_append.mp (List.pairwise_append.mp hs.sorted).2.1).1

lemma IsPage.mem (h : IsPage cmp S offset limit rows) {r : α} (hr : r ∈ rows) : S r := by
  obtain ⟨pre,post,hs⟩ := h.split
  exact (hs.mem r).mp (List.mem_append_right _ (List.mem_append_left _ hr))

section
variable [Std.OrientedCmp cmp]

/-- No row comes after the last one. -/
lemma le_getLast (hsorted : rows.Pairwise fun a b => cmp a b = .lt) {r l : α} (hr : r ∈ rows)
    (hl : l ∈ rows.getLast?) : (cmp r l).isLE := by
  obtain ⟨front,rfl⟩ := List.getLast?_eq_some_iff.mp hl
  rcases List.mem_append.mp hr with hr | hr
  · rw [(List.pairwise_append.mp hsorted).2.2 r hr l (.head _)]
    rfl
  · obtain rfl := List.mem_singleton.mp hr
    have hself : cmp r r = .eq := Std.ReflCmp.compare_self
    rw [hself]
    rfl

/-- No row comes before the first one. -/
lemma head_le (hsorted : rows.Pairwise fun a b => cmp a b = .lt) {r f : α} (hr : r ∈ rows)
    (hf : f ∈ rows.head?) : (cmp f r).isLE := by
  obtain ⟨tail,rfl⟩ := List.head?_eq_some_iff.mp hf
  rcases List.mem_cons.mp hr with rfl | hr
  · have hself : cmp r r = .eq := Std.ReflCmp.compare_self
    rw [hself]
    rfl
  · rw [(List.pairwise_cons.mp hsorted).1 r hr]
    rfl

/-- A row of the set that no end of the page cuts off is in the page. -/
theorem IsPage.mem_of_between (h : IsPage cmp S offset limit rows) {r : α} (hr : S r)
    (hlow : offset = 0 ∨ ∃ f ∈ rows.head?, (cmp f r).isLE)
    (hhigh : rows.length < limit ∨ ∃ l ∈ rows.getLast?, (cmp r l).isLE) : r ∈ rows := by
  obtain ⟨pre,post,hs⟩ := h.split
  obtain ⟨-,hrest,hpre⟩ := List.pairwise_append.mp hs.sorted
  obtain ⟨-,-,hpost⟩ := List.pairwise_append.mp hrest
  rcases List.mem_append.mp ((hs.mem r).mpr hr) with hm | hm
  · rcases hlow with hzero | ⟨f,hf,hle⟩
    · rw [hs.skipped hzero] at hm
      cases hm
    · have hlt := hpre r hm f (List.mem_append_left _ (List.mem_of_mem_head? hf))
      rw [Std.OrientedCmp.gt_of_lt hlt] at hle
      cases hle
  · rcases List.mem_append.mp hm with hm | hm
    · exact hm
    · rcases hhigh with hshort | ⟨l,hl,hle⟩
      · rw [hs.left hshort] at hm
        cases hm
      · have hlt := hpost l (List.mem_of_mem_getLast? hl) r hm
        rw [Std.OrientedCmp.gt_of_lt hlt] at hle
        cases hle

/-- A set's rows in their order. -/
def Listing (cmp : α → α → Ordering) (S : α → Prop) (all : List α) : Prop :=
  all.Pairwise (fun a b => cmp a b = .lt) ∧ ∀ r, r ∈ all ↔ S r

omit [Std.OrientedCmp cmp] in
lemma isPage_iff :
    IsPage cmp S offset limit rows ↔ ∃ all, Listing cmp S all ∧ rows = (all.drop offset).take limit := by
  constructor
  · rintro ⟨all,hsorted,hmem,heq⟩
    exact ⟨all,⟨hsorted,hmem⟩,heq⟩
  · rintro ⟨all,⟨hsorted,hmem⟩,heq⟩
    exact ⟨all,hsorted,hmem,heq⟩

lemma nodup_of_sorted {all : List α} (h : all.Pairwise fun a b => cmp a b = .lt) : all.Nodup := by
  refine h.imp ?_
  rintro a b hab rfl
  have hself : cmp a a = .eq := Std.ReflCmp.compare_self
  rw [hself] at hab
  cases hab

/-- There is one order only. -/
lemma Listing.unique {all all' : List α} (h : Listing cmp S all) (h' : Listing cmp S all') : all = all' := by
  have hperm : all.Perm all' :=
    (List.perm_ext_iff_of_nodup (nodup_of_sorted h.1) (nodup_of_sorted h'.1)).mpr fun r => (h.2 r).trans (h'.2 r).symm
  refine List.Perm.eq_of_pairwise (fun a b _ _ hab hba => ?_) h.1 h'.1 hperm
  rw [Std.OrientedCmp.gt_of_lt hab] at hba
  cases hba

/-- Behind a row are the rows that come after it. -/
lemma Listing.after {pre post : List α} {b : α} (h : Listing cmp S (pre ++ b :: post)) :
    Listing cmp (fun r => S r ∧ cmp b r = .lt) post := by
  obtain ⟨hsorted,hmem⟩ := h
  obtain ⟨hpre,hrest,hcross⟩ := List.pairwise_append.mp hsorted
  obtain ⟨hb,hpost⟩ := List.pairwise_cons.mp hrest
  refine ⟨hpost,fun r => ⟨fun hr => ⟨(hmem r).mp (by simp [hr]),hb r hr⟩,?_⟩⟩
  rintro ⟨hr,hlt⟩
  rcases List.mem_append.mp ((hmem r).mpr hr) with hin | hin
  · have hgt := Std.OrientedCmp.gt_of_lt (hcross r hin b (.head _))
    rw [hlt] at hgt
    cases hgt
  · rcases List.mem_cons.mp hin with rfl | hin
    · have hself : cmp r r = .eq := Std.ReflCmp.compare_self
      rw [hself] at hlt
      cases hlt
    · exact hin

end

/-- Pages one after the other, each behind the last row of the one before, until one is short. -/
inductive Loads (page : α → ℕ → List α → Prop) : α → List ℕ → List α → Prop
  | nil (b : α) : Loads page b [] []
  | short {b : α} {n : ℕ} {ns : List ℕ} {rows : List α} (hpage : page b n rows) (hshort : rows.length < n) :
    Loads page b (n :: ns) rows
  | more {b : α} {n : ℕ} {ns : List ℕ} {rows out : List α} (hpage : page b n rows) (hfull : ¬rows.length < n)
    (hmore : Loads page (rows.getLast?.getD b) ns out) : Loads page b (n :: ns) (rows ++ out)

lemma Loads.mono {page page' : α → ℕ → List α → Prop} {b : α} {ns : List ℕ} {out : List α}
    (h : Loads page b ns out) (himp : ∀ b n rows, page b n rows → page' b n rows) : Loads page' b ns out := by
  induction h with
  | nil b => exact .nil b
  | short hpage hshort => exact .short (himp _ _ _ hpage) hshort
  | more hpage hfull _ ih => exact .more (himp _ _ _ hpage) hfull ih

lemma Loads.exists {page : α → ℕ → List α → Prop} (hpage : ∀ b n, ∃ rows, page b n rows) (b : α)
    (ns : List ℕ) : ∃ out, Loads page b ns out := by
  induction ns generalizing b with
  | nil => exact ⟨[],.nil b⟩
  | cons n ns ih =>
    obtain ⟨rows,hrows⟩ := hpage b n
    by_cases hshort : rows.length < n
    · exact ⟨rows,.short hrows hshort⟩
    · obtain ⟨out,hout⟩ := ih (rows.getLast?.getD b)
      exact ⟨rows ++ out,.more hrows hshort hout⟩

/-- They are the rows behind the first boundary, in their order and each once. -/
theorem Loads.eq_take [Std.OrientedCmp cmp] {b : α} {ns : List ℕ} {out : List α}
    (h : Loads (fun b n => IsPage cmp (fun r => S r ∧ cmp b r = .lt) 0 n) b ns out) :
    ∀ {pre post : List α}, Listing cmp S (pre ++ b :: post) → out = post.take ns.sum := by
  have hpage : ∀ {b n rows pre post}, IsPage cmp (fun r => S r ∧ cmp b r = .lt) 0 n rows →
      Listing cmp S (pre ++ b :: post) → rows = post.take n := by
    intro b n rows pre post hpage hall
    obtain ⟨all,hlisting,rfl⟩ := isPage_iff.mp hpage
    rw [List.drop_zero,hlisting.unique hall.after]
  induction h with
  | nil b =>
    intro pre post _
    rfl
  | @short b n ns rows hrows hshort =>
    intro pre post hall
    rw [hpage hrows hall,List.length_take] at hshort
    rw [hpage hrows hall,List.take_of_length_le (by omega),List.take_of_length_le (by rw [List.sum_cons]; omega)]
  | @more b n ns rows out hrows hfull _ ih =>
    intro pre post hall
    have heq := hpage hrows hall
    rw [List.sum_cons,List.take_add,← heq]
    congr 1
    cases hlast : rows.getLast? with
    | none =>
      have hnil := List.getLast?_eq_none_iff.mp hlast
      have hn : n = 0 := by
        rw [hnil] at hfull
        simpa using hfull
      rw [hlast] at ih
      rw [hn,List.drop_zero]
      exact ih hall
    | some l =>
      rw [hlast] at ih
      obtain ⟨front,hfront⟩ := List.getLast?_eq_some_iff.mp hlast
      have hpost : front ++ l :: post.drop n = post := by
        calc front ++ l :: post.drop n = (front ++ [l]) ++ post.drop n := by simp
          _ = post := by rw [← hfront,heq,List.take_append_drop]
      have hwhole : (pre ++ b :: front) ++ l :: post.drop n = pre ++ b :: post := by
        rw [List.append_assoc,List.cons_append,hpost]
      exact ih (hwhole ▸ hall)

/-- With the page that the first boundary is the last row of, they are a longer page. -/
theorem Loads.append_eq_take [Std.OrientedCmp cmp] {all page : List α} {b : α} {ns : List ℕ} {out : List α}
    (h : Loads (fun b n => IsPage cmp (fun r => S r ∧ cmp b r = .lt) 0 n) b ns out) (hall : Listing cmp S all)
    (hpage : page = (all.drop offset).take limit) (hb : page.getLast? = some b) :
    page ++ out = (all.drop offset).take (limit + ns.sum) := by
  obtain ⟨front,hfront⟩ := List.getLast?_eq_some_iff.mp hb
  have hwhole : (all.take offset ++ front) ++ b :: (all.drop offset).drop limit = all := by
    calc (all.take offset ++ front) ++ b :: (all.drop offset).drop limit
        = all.take offset ++ ((front ++ [b]) ++ (all.drop offset).drop limit) := by simp
      _ = all.take offset ++ all.drop offset := by rw [← hfront,hpage,List.take_append_drop]
      _ = all := List.take_append_drop offset all
  rw [h.eq_take (hwhole.symm ▸ hall),hpage,List.take_add]

end Keyset
