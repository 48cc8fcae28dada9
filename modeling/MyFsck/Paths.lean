import MyFsck.Unfolding
import Mathlib.Data.Set.Card

/-! Paths in a graph whose edges have labels, and the items found at their ends. The unfolding of a node
meets the end of each path once. -/
namespace Unfolding

variable {α β ι : Type}

/-- A walk from node to node, given by the labels of its edges. -/
inductive Path (edges : α → List (ι × α)) : α → List ι → α → Prop
  | nil {x : α} : Path edges x [] x
  | cons {x y z : α} {i : ι} {p : List ι} :
      (i,y) ∈ edges x → Path edges y p z → Path edges x (i::p) z

/-- The paths from `x`, each with the label of an item `v` at its end. -/
def pathsTo (edges : α → List (ι × α)) (items : α → List (ι × β)) (x : α) (v : β) : Set (List ι × ι) :=
  {q | ∃ y, Path edges x q.1 y ∧ (q.2,v) ∈ items y}

section Count

variable [DecidableEq β] {edges : α → List (ι × α)} {items : α → List (ι × β)} {v : β}

/-- The labels of the items `v` of a node. -/
def labelsOf (v : β) (l : List (ι × β)) : List ι := (l.filter fun p => p.2 = v).map Prod.fst

theorem mem_labelsOf {l : List (ι × β)} {j : ι} : j ∈ labelsOf v l ↔ (j,v) ∈ l := by
  simp [labelsOf]

theorem labelsOf_nodup {l : List (ι × β)} (h : (l.map Prod.fst).Nodup) : (labelsOf v l).Nodup :=
  h.sublist (List.filter_sublist.map Prod.fst)

theorem labelsOf_length (l : List (ι × β)) : (labelsOf v l).length = (l.map Prod.snd).count v := by
  induction l with
  | nil => rfl
  | cons p l ih =>
    by_cases hp : p.2 = v
    · simpa [labelsOf,hp] using ih
    · simpa [labelsOf,hp] using ih

theorem Unfolds.list_paths (hedges : ∀ x, ((edges x).map Prod.fst).Nodup)
    (hitems : ∀ x, ((items x).map Prod.fst).Nodup) {ws m : List α}
    (h : Unfolds (fun x => (edges x).map Prod.snd) ws m) :
    ∀ starts : List (ι × α), (starts.map Prod.fst).Nodup → starts.map Prod.snd = ws →
      ∃ L : List (List ι × ι), L.Nodup ∧
        L.length = (m.flatMap fun y => (items y).map Prod.snd).count v ∧
        ∀ p j, (p,j) ∈ L ↔ ∃ i r w, p = i::r ∧ (i,w) ∈ starts ∧ (r,j) ∈ pathsTo edges items w v := by
  induction h with
  | nil =>
    intro starts _ hws
    obtain rfl := List.map_eq_nil_iff.mp hws
    exact ⟨[],List.nodup_nil,rfl,fun p j => by simp⟩
  | @cons x xs l ls _ _ ihx ihs =>
    intro starts hnd hws
    obtain ⟨⟨i₀,w₀⟩,rest,rfl,hx,hrest⟩ := List.map_eq_cons_iff.mp hws
    obtain rfl : w₀ = x := hx
    rw [List.map_cons,List.nodup_cons] at hnd
    obtain ⟨L₁,hnd₁,hlen₁,hmem₁⟩ := ihx (edges w₀) (hedges w₀) rfl
    obtain ⟨L₂,hnd₂,hlen₂,hmem₂⟩ := ihs rest hnd.2 hrest
    have hnotin : ∀ w, (i₀,w) ∉ rest := fun w hw => hnd.1 (List.mem_map.mpr ⟨(i₀,w),hw,rfl⟩)
    refine ⟨(labelsOf v (items w₀)).map (fun j => ([i₀],j)) ++
      (L₁.map (fun q => (i₀::q.1,q.2)) ++ L₂),?_,?_,?_⟩
    · rw [List.nodup_append',List.nodup_append']
      refine ⟨(labelsOf_nodup (hitems w₀)).map fun a b hab => (Prod.mk.inj hab).2,
        ⟨hnd₁.map fun a b hab => ?_,hnd₂,?_⟩,?_⟩
      · obtain ⟨h₁,h₂⟩ := Prod.mk.inj hab
        exact Prod.ext (List.cons.inj h₁).2 h₂
      · rintro ⟨p,j⟩ hin₁ hin₂
        obtain ⟨q,-,hq⟩ := List.mem_map.mp hin₁
        obtain ⟨i,r,w,hp,hw,-⟩ := (hmem₂ p j).mp hin₂
        obtain rfl : i₀::q.1 = p := (Prod.mk.inj hq).1
        obtain rfl : i₀ = i := (List.cons.inj hp).1
        exact hnotin w hw
      · rintro ⟨p,j⟩ hin₁ hin₂
        obtain ⟨j',-,hj⟩ := List.mem_map.mp hin₁
        obtain rfl : [i₀] = p := (Prod.mk.inj hj).1
        rcases List.mem_append.mp hin₂ with hin | hin
        · obtain ⟨q,hq,hqp⟩ := List.mem_map.mp hin
          obtain ⟨i,r,w,hp,-⟩ := (hmem₁ q.1 q.2).mp hq
          have hnil : q.1 = [] := (List.cons.inj (Prod.mk.inj hqp).1).2
          rw [hnil] at hp
          cases hp
        · obtain ⟨i,r,w,hp,hw,-⟩ := (hmem₂ [i₀] j).mp hin
          obtain rfl : i₀ = i := (List.cons.inj hp).1
          exact hnotin w hw
    · rw [List.length_append,List.length_append,List.length_map,List.length_map,labelsOf_length,hlen₁,
        hlen₂,List.flatMap_cons,List.flatMap_append,List.count_append,List.count_append]
    · intro p j
      rw [List.mem_append,List.mem_append,List.mem_map,List.mem_map,hmem₂]
      constructor
      · rintro (⟨j',hj,heq⟩ | ⟨q,hq,heq⟩ | ⟨i,r,w,hp,hw,hpath⟩)
        · obtain ⟨rfl,rfl⟩ := Prod.mk.inj heq
          exact ⟨i₀,[],w₀,rfl,by simp,w₀,.nil,mem_labelsOf.mp hj⟩
        · obtain ⟨rfl,rfl⟩ := Prod.mk.inj heq
          obtain ⟨i,r,w,hp,hw,y,hpath,hy⟩ := (hmem₁ q.1 q.2).mp hq
          refine ⟨i₀,q.1,w₀,rfl,by simp,y,?_,hy⟩
          show Path edges w₀ q.1 y
          rw [hp]
          exact .cons hw hpath
        · exact ⟨i,r,w,hp,by simp [hw],hpath⟩
      · rintro ⟨i,r,w,rfl,hw,y,hpath,hy⟩
        rcases List.mem_cons.mp hw with heq | hw
        · obtain ⟨rfl,rfl⟩ := Prod.mk.inj heq
          cases hpath with
          | nil => exact Or.inl ⟨j,mem_labelsOf.mpr hy,rfl⟩
          | cons hedge hpath =>
            exact Or.inr (Or.inl ⟨_,(hmem₁ _ j).mpr ⟨_,_,_,rfl,hedge,y,hpath,hy⟩,rfl⟩)
        · exact Or.inr (Or.inr ⟨i,r,w,rfl,hw,y,hpath,hy⟩)

theorem Unfolds.ncard_pathsTo (hedges : ∀ x, ((edges x).map Prod.fst).Nodup)
    (hitems : ∀ x, ((items x).map Prod.fst).Nodup) {x : α} {m : List α}
    (h : Unfolds (fun x => (edges x).map Prod.snd) [x] m) (v : β) :
    (pathsTo edges items x v).Finite ∧ (pathsTo edges items x v).ncard =
      (m.flatMap fun y => (items y).map Prod.snd).count v := by
  classical
  obtain ⟨l,rfl,hl⟩ := h.node_inv
  obtain ⟨L,hnd,hlen,hmem⟩ := hl.list_paths hedges hitems (v := v) (edges x) (hedges x) rfl
  have hall : ((labelsOf v (items x)).map (fun j => (([] : List ι),j)) ++ L).Nodup := by
    rw [List.nodup_append']
    refine ⟨(labelsOf_nodup (hitems x)).map fun a b hab => (Prod.mk.inj hab).2,hnd,?_⟩
    rintro ⟨p,j⟩ hin₁ hin₂
    obtain ⟨j',-,hj⟩ := List.mem_map.mp hin₁
    obtain ⟨i,r,w,hp,-⟩ := (hmem p j).mp hin₂
    obtain rfl : [] = p := (Prod.mk.inj hj).1
    cases hp
  have hset : pathsTo edges items x v =
      ((((labelsOf v (items x)).map (fun j => (([] : List ι),j)) ++ L).toFinset : Finset _) : Set _) := by
    ext ⟨p,j⟩
    rw [Finset.mem_coe,List.mem_toFinset,List.mem_append,List.mem_map,hmem]
    constructor
    · rintro ⟨y,hpath,hy⟩
      cases hpath with
      | nil => exact Or.inl ⟨j,mem_labelsOf.mpr hy,rfl⟩
      | cons hedge hpath => exact Or.inr ⟨_,_,_,rfl,hedge,y,hpath,hy⟩
    · rintro (⟨j',hj,heq⟩ | ⟨i,r,w,rfl,hw,y,hpath,hy⟩)
      · obtain ⟨rfl,rfl⟩ := Prod.mk.inj heq
        exact ⟨x,.nil,mem_labelsOf.mp hj⟩
      · exact ⟨y,.cons hw hpath,hy⟩
  rw [hset]
  refine ⟨Finset.finite_toSet _,?_⟩
  rw [Set.ncard_coe_finset,List.toFinset_card_of_nodup hall,List.length_append,List.length_map,
    labelsOf_length,hlen,List.flatMap_cons,List.count_append]

end Count

end Unfolding
