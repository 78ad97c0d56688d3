import Mathlib.Data.List.Basic
import Mathlib.Data.List.Forall2
import Mathlib.Data.Prod.Lex

/-! The LIKE matcher and what it decides. `like_match` scans text and pattern from the left; the
suffixes still to be read stand for its indices. `star` is the last `%` taken as a wildcard: the
pattern behind it and the text that the next retry starts from. -/
namespace ElectricCircuits

/-- The scanning loop of `like_match`, with the check that only `%` is left at its end. -/
def likeLoop (t p : List Char) (star : Option (List Char × List Char)) : Bool :=
  match t with
  | [] => (p.dropWhile (· == '%')).isEmpty
  | c :: t' =>
    if p.head? == some '_' || p.head? == some c then likeLoop t' p.tail star
    else if p.head? == some '%' then likeLoop (c :: t') p.tail (some (p.tail,t'))
    else
      match star with
      | some (sp,st) => likeLoop st sp (some (sp,st.tail))
      | none => false
termination_by
  ((star.map fun s => Max.max s.1.length p.length).getD (p.length+1),
    (star.map fun s => s.2.length).getD 0, t.length)
decreasing_by
  · -- a step of the scan shortens the text, and never lengthens the pattern
    cases star <;> simp [Prod.lex_iff] <;> omega
  · -- a new wildcard lies further right in the pattern than the last
    rename_i hp
    have hlen : p.tail.length < p.length := by cases p <;> simp_all
    cases star <;> simp only [Prod.lex_iff,Option.map_some,Option.map_none,Option.getD_some,
      Option.getD_none] <;> omega
  · -- a retry starts further right in the text
    simp only [Prod.lex_iff,Option.map_some,Option.getD_some,List.length_tail,List.length_cons]
    omega

def likeMatch (text pattern : String) : Bool := likeLoop text.toList pattern.toList none

/-- SQL `LIKE`: a `%` stands for any text, a `_` for any one character. -/
def SqlLike : List Char → List Char → Prop
  | [],t => t = []
  | d :: p,t =>
    if d = '%' then ∃ v, v <:+ t ∧ SqlLike p v
    else ∃ c v, t = c :: v ∧ (d = '_' ∨ d = c) ∧ SqlLike p v

/-- What the scan decides: as `SqlLike`, except that a `%` which meets a literal `%` in the text
stands for exactly that character. -/
def ScanLike : List Char → List Char → Prop
  | [],t => t = []
  | d :: p,t =>
    if d = '%' then
      if t.head? = some '%' then ScanLike p t.tail else ∃ v, v <:+ t ∧ ScanLike p v
    else ∃ c v, t = c :: v ∧ (d = '_' ∨ d = c) ∧ ScanLike p v

/-- The scan has read some characters one for one: `(p,t)` is left of `(sp,st)`. -/
inductive Walk : List Char → List Char → List Char → List Char → Prop where
  | refl (p t : List Char) : Walk p t p t
  | cons {sp st p t : List Char} {d c : Char} (h : d = '_' ∨ d = c) (w : Walk sp st p t) :
    Walk (d :: sp) (c :: st) p t

namespace Walk

lemma snoc {sp st p t : List Char} {d c : Char} (w : Walk sp st (d :: p) (c :: t))
    (h : d = '_' ∨ d = c) : Walk sp st p t := by
  generalize hp : d :: p = p' at w
  generalize ht : c :: t = t' at w
  induction w with
  | refl => subst hp ht; exact .cons h (.refl p t)
  | cons h' _ ih => exact .cons h' (ih hp ht)

lemma suffix {sp st p t : List Char} (w : Walk sp st p t) : t <:+ st := by
  induction w with
  | refl => exact List.suffix_rfl
  | cons _ _ ih => exact ih.trans (List.suffix_cons _ _)

/-- Reading one for one decides nothing. -/
lemma scanLike_iff {sp st p t : List Char} (w : Walk sp st p t) : ScanLike sp st ↔ ScanLike p t := by
  induction w with
  | refl => exact Iff.rfl
  | @cons sp st p t d c h _ ih =>
    rw [← ih,ScanLike]
    by_cases hd : d = '%'
    · have hc : c = '%' := by
        rcases h with h | h
        · subst h; simp at hd
        · exact h ▸ hd
      simp [hd,hc]
    · simp only [hd,if_false,List.cons.injEq]
      constructor
      · rintro ⟨c',v,⟨rfl,rfl⟩,-,hv⟩; exact hv
      · intro hv; exact ⟨c,st,⟨rfl,rfl⟩,h,hv⟩

end Walk

lemma ScanLike.of_percent {p t : List Char} (h : ScanLike ('%' :: p) t) :
    ∃ v, v <:+ t ∧ ScanLike p v := by
  rw [ScanLike,if_pos rfl] at h
  split at h
  · exact ⟨t.tail,List.tail_suffix t,h⟩
  · exact h

/-- A later start gains nothing on the text: whatever still matches from there matches the rest of
the pattern on a suffix of what the walk has left. -/
lemma Walk.later {sp st p t v : List Char} (w : Walk sp st p t) (hv : v <:+ st)
    (hm : ScanLike sp v) : ∃ u, u <:+ t ∧ ScanLike p u := by
  induction w generalizing v with
  | refl => exact ⟨v,hv,hm⟩
  | @cons sp st p t d c h w ih =>
    rcases List.suffix_cons_iff.mp hv with rfl | hv
    · exact ih List.suffix_rfl ((w.cons h).scanLike_iff.mp hm |> w.scanLike_iff.mpr)
    · by_cases hd : d = '%'
      · subst hd
        obtain ⟨u,hu,hmu⟩ := hm.of_percent
        exact ih (hu.trans hv) hmu
      · rw [ScanLike,if_neg hd] at hm
        obtain ⟨c',u,rfl,-,hmu⟩ := hm
        exact ih ((List.suffix_cons c' u).trans hv) hmu

lemma scanLike_nil_text (p : List Char) :
    ScanLike p [] ↔ (p.dropWhile (· == '%')).isEmpty = true := by
  induction p with
  | nil => simp [ScanLike]
  | cons d p ih =>
    rw [ScanLike]
    by_cases hd : d = '%'
    · simp [hd,ih]
    · simp [hd]

/-- A retry from the star would match. -/
def Retry (star : Option (List Char × List Char)) : Prop :=
  ∃ s ∈ star, ∃ v, v <:+ s.2 ∧ ScanLike s.1 v

/-- The scan stands one walk away from its star. -/
def AtStar (t p : List Char) (star : Option (List Char × List Char)) : Prop :=
  ∀ s ∈ star, ∃ st, s.2 = st.tail ∧ Walk s.1 st p t

lemma AtStar.retry {t p : List Char} {star : Option (List Char × List Char)} (h : AtStar t p star)
    (hr : Retry star) : ∃ u, u <:+ t ∧ ScanLike p u := by
  obtain ⟨s,hs,v,hv,hm⟩ := hr
  obtain ⟨st,hst,w⟩ := h s hs
  exact w.later (hv.trans (hst ▸ List.tail_suffix st)) hm

lemma exists_suffix_tail (p st : List Char) :
    (ScanLike p st ∨ ∃ v, v <:+ st.tail ∧ ScanLike p v) ↔ ∃ v, v <:+ st ∧ ScanLike p v := by
  cases st with
  | nil => simp
  | cons c st => simp [List.suffix_cons_iff,or_and_right,exists_or]

/-- The scan is stuck where the pattern has neither a wildcard nor the character at hand. -/
lemma not_scanLike {p : List Char} {c : Char} {t : List Char}
    (hp : ¬(p.head? == some '_' || p.head? == some c) = true) (hpc : ¬(p.head? == some '%') = true) :
    ¬ScanLike p (c :: t) := by
  cases p with
  | nil => simp [ScanLike]
  | cons d p =>
    have hd : d ≠ '%' := by simpa using hpc
    simp only [List.head?_cons,Bool.or_eq_true,beq_iff_eq,Option.some.injEq] at hp
    rw [ScanLike,if_neg hd]
    rintro ⟨c',v,hcv,hor,-⟩
    obtain ⟨rfl,rfl⟩ := List.cons.inj hcv
    exact hp hor

/-- The scan accepts when the rest of the text matches the rest of the pattern, or a retry would. -/
theorem likeLoop_iff (t p : List Char) (star : Option (List Char × List Char))
    (h : AtStar t p star) : likeLoop t p star = true ↔ ScanLike p t ∨ Retry star := by
  fun_induction likeLoop t p star with
  | case1 p star =>
    rw [← scanLike_nil_text,iff_self_or]
    intro hr
    obtain ⟨u,hu,hm⟩ := h.retry hr
    rwa [List.suffix_nil.mp hu] at hm
  | case2 p star c t hp ih =>
    obtain ⟨d,p,rfl⟩ : ∃ d p', p = d :: p' := by cases p <;> simp_all
    have hdc : d = '_' ∨ d = c := by simpa using hp
    simp only [List.tail_cons] at ih ⊢
    rw [ih fun s hs => ?_]
    · rw [((Walk.refl p t).cons hdc).scanLike_iff]
    · obtain ⟨st,hst,w⟩ := h s hs
      exact ⟨st,hst,w.snoc hdc⟩
  | case3 p star c t hp hpc ih =>
    obtain ⟨p,rfl⟩ : ∃ p', p = '%' :: p' := by cases p <;> simp_all
    have hc : c ≠ '%' := by
      rintro rfl
      simp at hp
    have hscan : ScanLike ('%' :: p) (c :: t) ↔ ∃ v, v <:+ c :: t ∧ ScanLike p v := by
      simp [ScanLike,hc]
    simp only [List.tail_cons] at ih ⊢
    rw [ih fun s hs => ⟨c :: t,by cases hs; rfl,by cases hs; exact .refl _ _⟩]
    have hnew : Retry (some (p,t)) ↔ ∃ v, v <:+ (c :: t).tail ∧ ScanLike p v := by simp [Retry]
    rw [hnew,exists_suffix_tail,hscan,iff_self_or]
    intro hr
    obtain ⟨u,hu,hm⟩ := h.retry hr
    obtain ⟨v,hv,hmv⟩ := hm.of_percent
    exact ⟨v,hv.trans hu,hmv⟩
  | case4 p c t hp hpc sp st ih =>
    obtain ⟨st',rfl,w⟩ := h (sp,st) rfl
    have hst : ScanLike sp st'.tail ∨ Retry (some (sp,st'.tail.tail)) ↔
        Retry (some (sp,st'.tail)) := by
      simpa [Retry] using exists_suffix_tail sp st'.tail
    rw [ih fun s hs => ⟨st'.tail,by cases hs; rfl,by cases hs; exact .refl _ _⟩,hst]
    simp only [not_scanLike hp hpc,false_or]
  | case5 p c t hp hpc => simp [not_scanLike hp hpc,Retry]

/-- Whatever the scan accepts, SQL accepts. -/
theorem ScanLike.sqlLike {p t : List Char} (h : ScanLike p t) : SqlLike p t := by
  induction p generalizing t with
  | nil => exact h
  | cons d p ih =>
    rw [SqlLike]
    split
    · rename_i hd
      subst hd
      obtain ⟨v,hv,hm⟩ := h.of_percent
      exact ⟨v,hv,ih hm⟩
    · rename_i hd
      rw [ScanLike,if_neg hd] at h
      obtain ⟨c,v,rfl,hor,hm⟩ := h
      exact ⟨c,v,rfl,hor,ih hm⟩

/-- On a text without a `%` the scan decides SQL's `LIKE`. -/
theorem scanLike_iff_sqlLike {p t : List Char} (ht : '%' ∉ t) : ScanLike p t ↔ SqlLike p t := by
  refine ⟨ScanLike.sqlLike,fun h => ?_⟩
  induction p generalizing t with
  | nil => exact h
  | cons d p ih =>
    rw [SqlLike] at h
    rw [ScanLike]
    by_cases hd : d = '%'
    · rw [if_pos hd] at h ⊢
      obtain ⟨v,hv,hm⟩ := h
      have hhead : t.head? ≠ some '%' := fun hh => ht (List.mem_of_head? hh)
      rw [if_neg hhead]
      exact ⟨v,hv,ih (fun hmem => ht (hv.subset hmem)) hm⟩
    · rw [if_neg hd] at h ⊢
      obtain ⟨c,v,rfl,hor,hm⟩ := h
      exact ⟨c,v,rfl,hor,ih (fun hmem => ht (List.mem_cons_of_mem c hmem)) hm⟩

/-- What `like_match` decides. -/
theorem likeMatch_iff (text pattern : String) :
    likeMatch text pattern = true ↔ ScanLike pattern.toList text.toList := by
  rw [likeMatch,likeLoop_iff _ _ _ (by simp [AtStar])]
  simp [Retry]

/-- What a character of the pattern may stand for. -/
def Stands (d : Char) (seg : List Char) : Prop :=
  if d = '%' then True else if d = '_' then seg.length = 1 else seg = [d]

/-- The text is put together from what the characters of the pattern stand for. -/
def Split (p : List Char) (segs : List (List Char)) (t : List Char) : Prop :=
  segs.flatten = t ∧ List.Forall₂ Stands p segs

/-- Where a `%` comes to stand before a literal `%` of the text, it stands for this one character. -/
def Literally (p : List Char) (segs : List (List Char)) : Prop :=
  ∀ i, p[i]? = some '%' → (segs.drop i).flatten.head? = some '%' → segs[i]? = some ['%']

lemma split_nil {segs : List (List Char)} {t : List Char} : Split [] segs t ↔ segs = [] ∧ t = [] := by
  constructor
  · rintro ⟨rfl,h⟩
    obtain rfl := List.forall₂_nil_left_iff.mp h
    exact ⟨rfl,rfl⟩
  · rintro ⟨rfl,rfl⟩
    exact ⟨rfl,.nil⟩

lemma split_cons {d : Char} {p : List Char} {segs : List (List Char)} {t : List Char} :
    Split (d::p) segs t ↔ ∃ seg rest v, segs = seg::rest ∧ t = seg ++ v ∧ Stands d seg ∧ Split p rest v := by
  constructor
  · rintro ⟨rfl,h⟩
    obtain ⟨seg,rest,hd,hp,rfl⟩ := List.forall₂_cons_left_iff.mp h
    exact ⟨seg,rest,rest.flatten,rfl,rfl,hd,rfl,hp⟩
  · rintro ⟨seg,rest,v,rfl,rfl,hd,rfl,hp⟩
    exact ⟨rfl,.cons hd hp⟩

lemma literally_cons {d : Char} {p : List Char} {seg : List Char} {rest : List (List Char)} :
    Literally (d::p) (seg::rest) ↔
      (d = '%' → (seg ++ rest.flatten).head? = some '%' → seg = ['%']) ∧ Literally p rest := by
  constructor
  · intro h
    refine ⟨fun hd hhead => ?_,fun i hi hhead => ?_⟩
    · simpa using h 0 (by simp [hd]) hhead
    · simpa using h (i+1) (by simpa using hi) (by simpa using hhead)
  · rintro ⟨h,hrest⟩ i hi hhead
    cases i with
    | zero => simpa using h (by simpa using hi) hhead
    | succ i => simpa using hrest i (by simpa using hi) (by simpa using hhead)

/-- A literal character, or a `_`, stands for one character. -/
lemma stands_iff {d : Char} {seg : List Char} (hd : d ≠ '%') :
    Stands d seg ↔ ∃ c, seg = [c] ∧ (d = '_' ∨ d = c) := by
  rw [Stands,if_neg hd]
  split_ifs with h
  · simp [h,List.length_eq_one_iff]
  · constructor
    · rintro rfl
      exact ⟨d,rfl,.inr rfl⟩
    · rintro ⟨c,rfl,hc⟩
      rw [hc.resolve_left h]

/-- SQL's `LIKE` is that the text splits. -/
lemma sqlLike_iff_split {p t : List Char} : SqlLike p t ↔ ∃ segs, Split p segs t := by
  induction p generalizing t with
  | nil => simp [SqlLike,split_nil]
  | cons d p ih =>
    rw [SqlLike]
    simp only [split_cons,ih]
    by_cases hd : d = '%'
    · rw [if_pos hd]
      constructor
      · rintro ⟨v,⟨seg,rfl⟩,rest,hv⟩
        exact ⟨seg::rest,seg,rest,v,rfl,rfl,by rw [Stands,if_pos hd]; trivial,hv⟩
      · rintro ⟨-,seg,rest,v,-,rfl,-,hv⟩
        exact ⟨v,List.suffix_append _ _,rest,hv⟩
    · rw [if_neg hd]
      constructor
      · rintro ⟨c,v,rfl,hc,rest,hv⟩
        exact ⟨[c]::rest,[c],rest,v,rfl,rfl,(stands_iff hd).mpr ⟨c,rfl,hc⟩,hv⟩
      · rintro ⟨-,seg,rest,v,-,rfl,hseg,hv⟩
        obtain ⟨c,rfl,hc⟩ := (stands_iff hd).mp hseg
        exact ⟨c,v,rfl,hc,rest,hv⟩

lemma scanLike_iff_split {p t : List Char} :
    ScanLike p t ↔ ∃ segs, Split p segs t ∧ Literally p segs := by
  induction p generalizing t with
  | nil => simp [ScanLike,split_nil,Literally]
  | cons d p ih =>
    rw [ScanLike]
    by_cases hd : d = '%'
    · subst hd
      rw [if_pos rfl]
      by_cases ht : t.head? = some '%'
      · obtain ⟨t,rfl⟩ : ∃ t', t = '%'::t' := by cases t <;> simp_all
        rw [if_pos ht,List.tail_cons,ih]
        constructor
        · rintro ⟨rest,hv,hl⟩
          exact ⟨['%']::rest,split_cons.mpr ⟨_,_,t,rfl,rfl,by simp [Stands],hv⟩,
            literally_cons.mpr ⟨fun _ _ => rfl,hl⟩⟩
        · rintro ⟨segs,hs,hl⟩
          obtain ⟨seg,rest,v,rfl,hsplit,-,hv⟩ := split_cons.mp hs
          obtain ⟨hseg,hrest⟩ := literally_cons.mp hl
          rw [hv.1,← hsplit] at hseg
          obtain rfl := hseg rfl rfl
          obtain rfl : t = v := by simpa using hsplit
          exact ⟨rest,hv,hrest⟩
      · rw [if_neg ht]
        simp only [ih]
        constructor
        · rintro ⟨v,⟨seg,rfl⟩,rest,hv,hl⟩
          refine ⟨seg::rest,split_cons.mpr ⟨_,_,v,rfl,rfl,by simp [Stands],hv⟩,literally_cons.mpr ⟨?_,hl⟩⟩
          rw [hv.1]
          exact fun _ hhead => absurd hhead ht
        · rintro ⟨segs,hs,hl⟩
          obtain ⟨seg,rest,v,rfl,rfl,-,hv⟩ := split_cons.mp hs
          exact ⟨v,List.suffix_append _ _,rest,hv,(literally_cons.mp hl).2⟩
    · rw [if_neg hd]
      simp only [ih]
      constructor
      · rintro ⟨c,v,rfl,hc,rest,hv,hl⟩
        exact ⟨[c]::rest,split_cons.mpr ⟨_,_,v,rfl,rfl,(stands_iff hd).mpr ⟨c,rfl,hc⟩,hv⟩,
          literally_cons.mpr ⟨fun h => absurd h hd,hl⟩⟩
      · rintro ⟨segs,hs,hl⟩
        obtain ⟨seg,rest,v,rfl,rfl,hseg,hv⟩ := split_cons.mp hs
        obtain ⟨c,rfl,hc⟩ := (stands_iff hd).mp hseg
        exact ⟨c,v,rfl,hc,rest,hv,(literally_cons.mp hl).2⟩

/-- The matcher decides whether the text splits according to the pattern exactly where a text that
splits does so with every `%` that faces a literal `%` standing for this character; so on every text
without a `%`. -/
theorem likeMatch_splits (text pattern : String) :
    ((likeMatch text pattern = true ↔ ∃ segs, Split pattern.toList segs text.toList) ↔
      ((∃ segs, Split pattern.toList segs text.toList) →
        ∃ segs, Split pattern.toList segs text.toList ∧ Literally pattern.toList segs)) ∧
    ('%' ∉ text.toList → (likeMatch text pattern = true ↔ ∃ segs, Split pattern.toList segs text.toList)) := by
  refine ⟨?_,fun h => ?_⟩
  · rw [likeMatch_iff,← sqlLike_iff_split,← scanLike_iff_split]
    exact ⟨fun h => h.mpr,fun h => ⟨ScanLike.sqlLike,h⟩⟩
  · rw [likeMatch_iff,← sqlLike_iff_split,scanLike_iff_sqlLike h]

theorem sample_likeMatch_splits :
    (likeMatch "50%" "5_%" = true ↔ ∃ segs, Split "5_%".toList segs "50%".toList) ∧
      (likeMatch "50" "5%" = true ↔ ∃ segs, Split "5%".toList segs "50".toList) := by
  have htext : "50%".toList = ['5','0','%'] := by decide
  have hpattern : "5_%".toList = ['5','_','%'] := by decide
  refine ⟨(likeMatch_splits "50%" "5_%").1.mpr fun _ => ?_,(likeMatch_splits "50" "5%").2 (by decide)⟩
  rw [htext,hpattern]
  refine ⟨[['5'],['0'],['%']],⟨rfl,?_⟩,fun i hi _ => ?_⟩
  · exact .cons (by simp [Stands]) (.cons (by simp [Stands]) (.cons (by simp [Stands]) .nil))
  · match i,hi with
    | 2,_ => rfl
    | i+3,hi => simp at hi

/-- The pattern `%` does not match the text `%a`: the `%` is taken to stand for itself. -/
theorem sample_likeMatch_percent : ¬∀ text pattern : String,
    likeMatch text pattern = true ↔ ∃ segs, Split pattern.toList segs text.toList := by
  intro h
  have htext : "%a".toList = ['%','a'] := by decide
  have hpattern : "%".toList = ['%'] := by decide
  have hsplit : Split ['%'] [['%','a']] ['%','a'] := ⟨rfl,.cons (by simp [Stands]) .nil⟩
  have hmatch := (h "%a" "%").mpr ⟨_,by rw [htext,hpattern]; exact hsplit⟩
  rw [likeMatch_iff,htext,hpattern] at hmatch
  simp [ScanLike] at hmatch

end ElectricCircuits
