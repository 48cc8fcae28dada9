import Mathlib.Logic.Relation
import Mathlib.Data.List.Nodup
import Mathlib.Data.Set.Finite.Basic
import Mathlib.Data.Fintype.Order
import Mathlib.Order.WellFounded
import Mathlib.Algebra.BigOperators.Group.List.Basic

/-! The finite unfolding of a finitely branching graph.
`Unfolds kids ws l` says that walking the graph depth first from each node of `ws` in turn,
with no memory of the nodes already met, ends and meets the nodes of `l` in that order. -/
namespace Unfolding

variable {α : Type*} {kids kids' : α → List α}

inductive Unfolds (kids : α → List α) : List α → List α → Prop
  | nil : Unfolds kids [] []
  | cons {x : α} {xs l ls : List α} :
      Unfolds kids (kids x) l → Unfolds kids xs ls → Unfolds kids (x::xs) (x::(l++ls))

/-- `b` is met on some walk from `a`. -/
def Reach (kids : α → List α) : α → α → Prop := Relation.ReflTransGen fun a b => b ∈ kids a

theorem Reach.mem {a b : α} (h : Reach kids a b) {S : List α} (ha : a ∈ S)
    (hS : ∀ y ∈ S, ∀ k ∈ kids y, k ∈ S) : b ∈ S := by
  induction h with
  | refl => exact ha
  | tail _ hk ih => exact hS _ ih _ hk

theorem Reach.congr {a b : α} (h : ∀ y, Reach kids a y → kids' y = kids y) :
    Reach kids' a b ↔ Reach kids a b := by
  constructor
  · intro hr
    induction hr with
    | refl => exact .refl
    | tail _ hk ih => exact ih.tail (h _ ih ▸ hk)
  · intro hr
    induction hr with
    | refl => exact .refl
    | @tail y z hy hk ih => exact ih.tail (show z ∈ kids' y from (h y hy).symm ▸ hk)

namespace Unfolds

theorem nil_inv {m : List α} (h : Unfolds kids [] m) : m = [] := by
  cases h
  rfl

theorem cons_inv {x : α} {xs m : List α} (h : Unfolds kids (x::xs) m) :
    ∃ l ls, m = x::(l++ls) ∧ Unfolds kids (kids x) l ∧ Unfolds kids xs ls := by
  cases h with
  | cons h₁ h₂ => exact ⟨_,_,rfl,h₁,h₂⟩

theorem node {x : α} {l : List α} (h : Unfolds kids (kids x) l) : Unfolds kids [x] (x::l) := by
  simpa using Unfolds.cons h .nil

theorem node_inv {x : α} {m : List α} (h : Unfolds kids [x] m) :
    ∃ l, m = x::l ∧ Unfolds kids (kids x) l := by
  obtain ⟨l,ls,rfl,h₁,h₂⟩ := h.cons_inv
  obtain rfl := h₂.nil_inv
  exact ⟨l,by simp,h₁⟩

theorem append {xs ys l m : List α} (h : Unfolds kids xs l) (h' : Unfolds kids ys m) :
    Unfolds kids (xs++ys) (l++m) := by
  induction h with
  | nil => exact h'
  | cons h₁ _ _ ih => simpa [List.append_assoc] using Unfolds.cons h₁ ih

theorem append_inv {xs ys m : List α} (h : Unfolds kids (xs++ys) m) :
    ∃ l ls, m = l++ls ∧ Unfolds kids xs l ∧ Unfolds kids ys ls := by
  induction xs generalizing m with
  | nil => exact ⟨[],m,rfl,.nil,h⟩
  | cons x xs ih =>
    obtain ⟨l,ls,rfl,h₁,h₂⟩ := h.cons_inv
    obtain ⟨l',ls',rfl,h₃,h₄⟩ := ih h₂
    exact ⟨x::(l++l'),ls',by simp [List.append_assoc],.cons h₁ h₃,h₄⟩

theorem uncons {x : α} {xs m : List α} (h : Unfolds kids (x::xs) m) :
    ∃ l ls, m = l++ls ∧ Unfolds kids [x] l ∧ Unfolds kids xs ls :=
  append_inv (show Unfolds kids ([x]++xs) m from h)

theorem functional {ws l m : List α} (h : Unfolds kids ws l) (h' : Unfolds kids ws m) : l = m := by
  induction h generalizing m with
  | nil => exact h'.nil_inv.symm
  | cons _ _ ih₁ ih₂ =>
    obtain ⟨l',ls',rfl,h₁,h₂⟩ := h'.cons_inv
    rw [ih₁ h₁,ih₂ h₂]

theorem starts_mem {ws l : List α} (h : Unfolds kids ws l) : ∀ x ∈ ws, x ∈ l := by
  induction h with
  | nil => simp
  | cons _ _ _ ih =>
    intro x hx
    rcases List.mem_cons.mp hx with rfl | hx
    · simp
    · simp [ih x hx]

theorem kids_mem {ws l : List α} (h : Unfolds kids ws l) : ∀ y ∈ l, ∀ k ∈ kids y, k ∈ l := by
  induction h with
  | nil => simp
  | cons h₁ _ ih₁ ih₂ =>
    intro y hy k hk
    simp only [List.mem_cons,List.mem_append] at hy ⊢
    rcases hy with rfl | hy | hy
    · exact Or.inr (Or.inl (h₁.starts_mem k hk))
    · exact Or.inr (Or.inl (ih₁ y hy k hk))
    · exact Or.inr (Or.inr (ih₂ y hy k hk))

theorem mem_of_reach {ws l : List α} (h : Unfolds kids ws l) {x y : α} (hx : x ∈ l)
    (hr : Reach kids x y) : y ∈ l := by
  induction hr with
  | refl => exact hx
  | tail _ hk ih => exact h.kids_mem _ ih _ hk

theorem reach_of_mem {ws l : List α} (h : Unfolds kids ws l) {y : α} (hy : y ∈ l) :
    ∃ x ∈ ws, Reach kids x y := by
  induction h with
  | nil => simp at hy
  | @cons x xs l ls _ _ ih₁ ih₂ =>
    simp only [List.mem_cons,List.mem_append] at hy
    rcases hy with rfl | hy | hy
    · exact ⟨y,by simp,.refl⟩
    · obtain ⟨k,hk,hr⟩ := ih₁ hy
      exact ⟨x,by simp,.head hk hr⟩
    · obtain ⟨w,hw,hr⟩ := ih₂ hy
      exact ⟨w,by simp [hw],hr⟩

theorem mem_iff {x y : α} {l : List α} (h : Unfolds kids [x] l) : y ∈ l ↔ Reach kids x y := by
  constructor
  · intro hy
    obtain ⟨w,hw,hr⟩ := h.reach_of_mem hy
    rw [List.mem_singleton.mp hw] at hr
    exact hr
  · exact h.mem_of_reach (h.starts_mem x (by simp))

theorem congr {ws l : List α} (h : Unfolds kids ws l) (hk : ∀ y ∈ l, kids' y = kids y) :
    Unfolds kids' ws l := by
  induction h with
  | nil => exact .nil
  | @cons x xs l ls _ _ ih₁ ih₂ =>
    refine .cons ?_ (ih₂ fun y hy => hk y (by simp [hy]))
    rw [hk x (by simp)]
    exact ih₁ fun y hy => hk y (by simp [hy])

theorem tree_induction {P : α → List α → Prop}
    (step : ∀ x l, Unfolds kids (kids x) l →
      (∀ k m, k ∈ kids x → Unfolds kids [k] m → m.length ≤ l.length → (∀ y ∈ m, y ∈ l) → P k m) →
      P x (x::l))
    {x : α} {m : List α} (h : Unfolds kids [x] m) : P x m := by
  obtain ⟨n,hn⟩ : ∃ n, m.length ≤ n := ⟨_,le_rfl⟩
  induction n generalizing x m with
  | zero =>
    obtain ⟨l,rfl,_⟩ := h.node_inv
    simp at hn
  | succ n ih =>
    obtain ⟨l,rfl,hl⟩ := h.node_inv
    refine step x l hl fun k m hk hm hle _ => ih hm ?_
    simp only [List.length_cons] at hn
    omega

theorem sub_unfolds {ws l : List α} (h : Unfolds kids ws l) {y : α} (hy : y ∈ l) :
    ∃ m, Unfolds kids [y] m ∧ m.Sublist l := by
  induction h with
  | nil => simp at hy
  | @cons x xs l ls h₁ _ ih₁ ih₂ =>
    simp only [List.mem_cons,List.mem_append] at hy
    rcases hy with rfl | hy | hy
    · exact ⟨_,.node h₁,(List.sublist_append_left l ls).cons_cons _⟩
    · obtain ⟨m,hm,hs⟩ := ih₁ hy
      exact ⟨m,hm,(hs.trans (List.sublist_append_left l ls)).cons _⟩
    · obtain ⟨m,hm,hs⟩ := ih₂ hy
      exact ⟨m,hm,(hs.trans (List.sublist_append_right l ls)).cons _⟩

end Unfolds

/-- The unfolding as a computation; `none` when the fuel runs out. -/
def unfoldFrom (kids : α → List α) : (fuel : ℕ) → List α → Option (List α)
  | _, [] => some []
  | 0, _::_ => none
  | n+1, x::xs => do
    let l ← unfoldFrom kids n (kids x)
    let ls ← unfoldFrom kids n xs
    some (x::(l++ls))

theorem unfolds_of_unfoldFrom {n : ℕ} {ws l : List α} (h : unfoldFrom kids n ws = some l) :
    Unfolds kids ws l := by
  induction n generalizing ws l with
  | zero =>
    cases ws with
    | nil =>
      obtain rfl : [] = l := by simpa [unfoldFrom] using h
      exact .nil
    | cons x xs => simp [unfoldFrom] at h
  | succ n ih =>
    cases ws with
    | nil =>
      obtain rfl : [] = l := by simpa [unfoldFrom] using h
      exact .nil
    | cons x xs =>
      simp only [unfoldFrom,Option.bind_eq_bind,Option.bind_eq_some_iff] at h
      obtain ⟨l₁,h₁,l₂,h₂,he⟩ := h
      obtain rfl := Option.some.inj he
      exact .cons (ih h₁) (ih h₂)

/-- No node met from `r` leads back to itself. -/
def Acyclic (kids : α → List α) (r : α) : Prop :=
  ∀ y, Reach kids r y → ¬ Relation.TransGen (fun a b => b ∈ kids a) y y

theorem Unfolds.acyclic {r : α} {l : List α} (h : Unfolds kids [r] l) : Acyclic kids r := by
  intro y hy hc
  obtain ⟨m,hm,_⟩ := h.sub_unfolds (h.mem_iff.mpr hy)
  obtain ⟨k,hk,hr⟩ : ∃ k ∈ kids y, Reach kids k y := by
    obtain ⟨k,hk,hr⟩ := Relation.TransGen.head'_iff.mp hc
    exact ⟨k,hk,hr⟩
  obtain ⟨m',rfl,hm'⟩ := hm.node_inv
  have hmem : y ∈ m' := hm'.mem_of_reach (hm'.starts_mem k hk) hr
  obtain ⟨m'',hm'',hs⟩ := hm'.sub_unfolds hmem
  have hle := hs.length_le
  rw [hm''.functional hm,List.length_cons] at hle
  omega

theorem unfolds_of_list (xs : List α) (h : ∀ x ∈ xs, ∃ l, Unfolds kids [x] l) :
    ∃ l, Unfolds kids xs l := by
  induction xs with
  | nil => exact ⟨[],.nil⟩
  | cons x xs ih =>
    obtain ⟨l,hl⟩ := h x (by simp)
    obtain ⟨ls,hls⟩ := ih fun y hy => h y (by simp [hy])
    exact ⟨l++ls,by simpa using hl.append hls⟩

theorem unfolds_of_acc {x : α} (h : Acc (fun b a => b ∈ kids a) x) : ∃ l, Unfolds kids [x] l := by
  induction h with
  | intro x _ ih =>
    obtain ⟨l,hl⟩ := unfolds_of_list (kids x) fun k hk => ih k hk
    exact ⟨x::l,.node hl⟩

/-- Every node below `r` has one parent, and `r` has none. -/
structure OneParent (kids : α → List α) (r : α) : Prop where
  root : ∀ x, Reach kids r x → r ∉ kids x
  one : ∀ x y z, Reach kids r x → Reach kids r y → z ∈ kids x → z ∈ kids y → x = y

theorem OneParent.acyclic {r : α} (h : OneParent kids r) : Acyclic kids r := by
  intro y hy
  induction hy with
  | refl =>
    intro hc
    obtain ⟨a,hra,hka⟩ := Relation.TransGen.tail'_iff.mp hc
    exact h.root a hra hka
  | @tail x y hx hk ih =>
    intro hc
    obtain ⟨a,hya,hka⟩ := Relation.TransGen.tail'_iff.mp hc
    obtain rfl := h.one a x y ((Relation.ReflTransGen.tail hx hk).trans hya) hx hka hk
    exact ih (Relation.TransGen.head' hk hya)

theorem OneParent.exists_parent {r : α} (h : OneParent kids r) :
    ∃ par : α → α, par r = r ∧ ∀ x, Reach kids r x → ∀ k ∈ kids x, par k = x := by
  classical
  refine ⟨fun k => if hk : ∃ x, Reach kids r x ∧ k ∈ kids x then hk.choose else r,?_,fun x hx k hk => ?_⟩
  · exact dif_neg fun ⟨x,hx,hr⟩ => h.root x hx hr
  · have hex : ∃ x, Reach kids r x ∧ k ∈ kids x := ⟨x,hx,hk⟩
    simp only [dif_pos hex]
    exact h.one _ x k hex.choose_spec.1 hx hex.choose_spec.2 hk

theorem Acyclic.of_sub {r : α} (h : Acyclic kids' r)
    (hsub : ∀ y, Reach kids r y → ∀ k ∈ kids y, k ∈ kids' y) : Acyclic kids r := by
  have hreach : ∀ {y}, Reach kids r y → Reach kids' r y := fun hy => by
    induction hy with
    | refl => exact .refl
    | tail ha hk ih => exact ih.tail (hsub _ ha _ hk)
  intro y hy hc
  have key : ∀ {z}, Relation.TransGen (fun a b => b ∈ kids a) y z →
      Relation.TransGen (fun a b => b ∈ kids' a) y z := fun hz => by
    induction hz with
    | single hk => exact .single (hsub _ hy _ hk)
    | tail ha hk ih => exact ih.tail (hsub _ (hy.trans ha.to_reflTransGen) _ hk)
  exact h y (hreach hy) (key hc)

theorem Acyclic.induction_down {r : α} (h : Acyclic kids r) (hfin : {y | Reach kids r y}.Finite)
    {P : α → Prop} (step : ∀ y, Reach kids r y → (∀ x, Reach kids r x → y ∈ kids x → P x) → P y)
    {y : α} (hy : Reach kids r y) : P y := by
  let S := {y // Reach kids r y}
  have : Finite S := hfin.to_subtype
  let R : S → S → Prop := fun b a => Relation.TransGen (fun a b => b ∈ kids a) b.1 a.1
  have : IsTrans S R := ⟨fun a b c hab hbc => Relation.TransGen.trans hab hbc⟩
  have : Std.Irrefl R := ⟨fun a ha => h a.1 a.2 ha⟩
  have hwf : WellFounded R := Finite.wellFounded_of_trans_of_irrefl R
  have key : ∀ a : S, P a.1 := by
    intro a
    induction a using hwf.induction with
    | _ a ih => exact step a.1 a.2 fun x hx hk => ih ⟨x,hx⟩ (.single hk)
  exact key ⟨y,hy⟩

theorem Acyclic.unfolds {r : α} (h : Acyclic kids r) (hfin : {y | Reach kids r y}.Finite) :
    ∃ l, Unfolds kids [r] l := by
  let S := {y // Reach kids r y}
  have : Finite S := hfin.to_subtype
  let R : S → S → Prop := fun b a => Relation.TransGen (fun a b => b ∈ kids a) a.1 b.1
  have : IsTrans S R := ⟨fun a b c hab hbc => Relation.TransGen.trans hbc hab⟩
  have : Std.Irrefl R := ⟨fun a ha => h a.1 a.2 ha⟩
  have hwf : WellFounded R := Finite.wellFounded_of_trans_of_irrefl R
  have key : ∀ a : S, Acc (fun b a => b ∈ kids a) a.1 := by
    intro a
    induction a using hwf.induction with
    | _ a ih =>
      refine ⟨_,fun k hk => ih ⟨k,a.2.tail hk⟩ (.single hk)⟩
  exact unfolds_of_acc (key ⟨r,.refl⟩)

theorem Unfolds.perm_flatMap {ws l : List α} (h : Unfolds kids ws l) :
    l.Perm (ws ++ l.flatMap kids) := by
  induction h with
  | nil => exact .nil
  | @cons x xs l ls _ _ ih₁ ih₂ =>
    simp only [List.cons_append,List.flatMap_cons,List.flatMap_append]
    refine .cons x ((ih₁.append ih₂).trans ?_)
    rw [← List.append_assoc,← List.append_assoc,← List.append_assoc]
    refine List.Perm.append_right _ ?_
    rw [List.append_assoc xs]
    exact List.perm_append_comm

/-- No node below `r` is a kid twice. -/
def KidOnce (kids : α → List α) (r : α) : Prop :=
  (∀ a, Reach kids r a → (kids a).Nodup) ∧
    ∀ a b, Reach kids r a → Reach kids r b → a ≠ b → ∀ y ∈ kids a, y ∉ kids b

theorem Unfolds.nodup_iff [DecidableEq α] {r : α} {l : List α} (h : Unfolds kids [r] l) :
    l.Nodup ↔ KidOnce kids r := by
  have hperm := h.perm_flatMap
  constructor
  · intro hnd
    have hnd' := (List.nodup_cons.mp (hperm.nodup_iff.mp hnd)).2
    obtain ⟨h₁,h₂⟩ := List.nodup_flatMap.mp hnd'
    refine ⟨fun a ha => h₁ a (h.mem_iff.mpr ha),fun a b ha hb hab y hya hyb => ?_⟩
    have : Std.Symm (Function.onFun List.Disjoint kids) := ⟨fun _ _ hd => List.Disjoint.symm hd⟩
    exact h₂.forall (h.mem_iff.mpr ha) (h.mem_iff.mpr hb) hab hya hyb
  · rintro ⟨h₁,h₂⟩
    have hroot : ∀ a, Reach kids r a → r ∉ kids a := fun a ha hr =>
      h.acyclic r .refl (Relation.TransGen.tail' ha hr)
    have key : ∀ y, Reach kids r y → l.count y ≤ 1 := by
      intro y hy
      induction hy with
      | refl =>
        have hno : r ∉ l.flatMap kids := fun hr => by
          obtain ⟨a,ha,hra⟩ := List.mem_flatMap.mp hr
          exact hroot a (h.mem_iff.mp ha) hra
        rw [hperm.count_eq,List.count_append,List.count_eq_zero_of_not_mem hno]
        simp
      | @tail a y ha hk ih =>
        have hne : r ≠ y := fun he => hroot a ha (he ▸ hk)
        have hsum : ((l.map fun b => (kids b).count y)).sum = l.count a • (kids a).count y :=
          List.sum_map_eq_nsmul_single a _ fun b hb hbl => List.count_eq_zero_of_not_mem
            (h₂ a b ha (h.mem_iff.mp hbl) hb.symm y hk)
        rw [hperm.count_eq,List.count_append,List.count_flatMap,List.count_singleton,
          if_neg (by simpa using hne),Nat.zero_add]
        refine (le_of_eq hsum).trans ?_
        have hle := List.nodup_iff_count_le_one.mp (h₁ a ha) y
        exact Nat.mul_le_mul ih hle
    refine List.nodup_iff_count_le_one.mpr fun y => ?_
    by_cases hy : y ∈ l
    · exact key y (h.mem_iff.mp hy)
    · rw [List.count_eq_zero_of_not_mem hy]
      exact Nat.zero_le 1

theorem Unfolds.filter {p : α → Bool} (hp : ∀ y, p y = false → kids y = []) {ws l : List α}
    (h : Unfolds kids ws l) : Unfolds (fun y => (kids y).filter p) (ws.filter p) (l.filter p) := by
  induction h with
  | nil => exact .nil
  | @cons x xs l ls h₁ _ ih₁ ih₂ =>
    cases hx : p x with
    | true =>
      rw [List.filter_cons_of_pos hx,List.filter_cons_of_pos hx,List.filter_append]
      exact .cons ih₁ ih₂
    | false =>
      rw [hp x hx] at h₁
      obtain rfl := h₁.nil_inv
      rw [List.filter_cons_of_neg (by simp [hx]),List.filter_cons_of_neg (by simp [hx])]
      simpa using ih₂

theorem Acyclic.of_filter {r : α} {p : α → Bool} (h : Acyclic (fun y => (kids y).filter p) r)
    (hp : ∀ y, Reach kids r y → p y = false → kids y = []) : Acyclic kids r := by
  have hpos : ∀ {y z}, Reach kids r y → z ∈ kids y → p y = true := by
    intro y z hy hz
    by_contra hno
    rw [hp y hy (by simpa using hno)] at hz
    cases hz
  have hreach : ∀ {y}, Reach kids r y → p y = true → Reach (fun y => (kids y).filter p) r y := by
    intro y hy
    induction hy with
    | refl => exact fun _ => .refl
    | tail hx hk ih => exact fun hz => (ih (hpos hx hk)).tail (List.mem_filter.mpr ⟨hk,hz⟩)
  intro y hy hcycle
  have hpath : ∀ {z}, Relation.TransGen (fun a b => b ∈ kids a) y z → p z = true →
      Relation.TransGen (fun a b => b ∈ (kids a).filter p) y z := by
    intro z hz
    induction hz with
    | single hk => exact fun hz => .single (List.mem_filter.mpr ⟨hk,hz⟩)
    | tail hz hk ih =>
      exact fun hw => (ih (hpos (hy.trans hz.to_reflTransGen) hk)).tail (List.mem_filter.mpr ⟨hk,hw⟩)
  obtain ⟨k,hk,_⟩ := Relation.TransGen.head'_iff.mp hcycle
  have hself := hpos hy hk
  exact h y (hreach hy hself) (hpath hcycle hself)

theorem Unfolds.length_sublist {ws' l' : List α} (h' : Unfolds kids' ws' l')
    (hsub : ∀ y ∈ l', (kids y).Sublist (kids' y)) {ws l : List α} (h : Unfolds kids ws l)
    (hws : ws.Sublist ws') :
    l.length ≤ l'.length ∧
      (l.length = l'.length → ws = ws' ∧ ∀ y ∈ l', kids y = kids' y) := by
  induction h' generalizing ws l with
  | nil =>
    obtain rfl := List.sublist_nil.mp hws
    obtain rfl := h.nil_inv
    simp
  | @cons x xs m ms _ _ ih₁ ih₂ =>
    have ih₁ := @ih₁ fun y hy => hsub y (by simp [hy])
    have ih₂ := @ih₂ fun y hy => hsub y (by simp [hy])
    cases hws with
    | cons _ hws =>
      obtain ⟨hle,_⟩ := ih₂ h hws
      simp only [List.length_cons,List.length_append]
      exact ⟨by omega,fun heq => by omega⟩
    | cons_cons _ hws =>
      obtain ⟨k,ks,rfl,hk,hks⟩ := h.cons_inv
      obtain ⟨hle₁,heq₁⟩ := ih₁ hk (hsub x (by simp))
      obtain ⟨hle₂,heq₂⟩ := ih₂ hks hws
      simp only [List.length_cons,List.length_append]
      refine ⟨by omega,fun heq => ?_⟩
      obtain ⟨hx,hall₁⟩ := heq₁ (by omega)
      obtain ⟨hxs,hall₂⟩ := heq₂ (by omega)
      refine ⟨by rw [hxs],fun y hy => ?_⟩
      simp only [List.mem_cons,List.mem_append] at hy
      rcases hy with rfl | hy | hy
      · exact hx
      · exact hall₁ y hy
      · exact hall₂ y hy

end Unfolding
