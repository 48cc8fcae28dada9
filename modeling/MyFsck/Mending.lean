import MyFsck.ErrorState
import Mathlib.Data.Set.Lattice
import Mathlib.Order.CompletePartialOrder

/-! Programs that put right what is wrong with a state and make nothing wrong. What is wrong is a set of
places; a part of a program answers for some of them, and the parts together for all. -/
namespace Mending

open ErrorState

variable {ε σ ι α β γ : Type} {Good : σ → Prop} {wrong : σ → Set ι}

/-- From every good state `c` ends well, in a good state in which no place of `N` is wrong, nor any that
was not wrong before. -/
def Restores (Good : σ → Prop) (wrong : σ → Set ι) (N : Set ι) (c : EStateM ε σ α) : Prop :=
  ∀ s, Good s → ∃ a s', c.run s = .ok a s' ∧ Good s' ∧ wrong s' ⊆ wrong s \ N

namespace Restores

variable {N M : Set ι} {c : EStateM ε σ α} {f : α → EStateM ε σ β}

theorem pure (a : α) : Restores Good wrong ∅ (Pure.pure a : EStateM ε σ α) :=
  fun s hs => ⟨a,s,rfl,hs,by rw [Set.sdiff_empty]⟩

theorem mono (h : Restores Good wrong N c) (hM : M ⊆ N) : Restores Good wrong M c := fun s hs => by
  obtain ⟨a,s',hrun,hgood,hsub⟩ := h s hs
  exact ⟨a,s',hrun,hgood,hsub.trans (Set.sdiff_subset_sdiff_right hM)⟩

theorem bind_after (hc : Restores Good wrong N c)
    (hf : ∀ a, Restores (fun s => Good s ∧ Disjoint (wrong s) N) wrong M (f a)) :
    Restores Good wrong (N ∪ M) (c >>= f) := by
  intro s hs
  obtain ⟨a,s₁,hrun,hgood,hsub⟩ := hc s hs
  have hright : Disjoint (wrong s₁) N := Set.disjoint_sdiff_left.mono_left hsub
  obtain ⟨b,s₂,hrun₂,⟨hgood₂,_⟩,hsub₂⟩ := hf a s₁ ⟨hgood,hright⟩
  refine ⟨b,s₂,by rw [bind_ok hrun,hrun₂],hgood₂,hsub₂.trans ?_⟩
  rw [← Set.sdiff_sdiff]
  exact Set.sdiff_subset_sdiff_left hsub

theorem keeps_right (h : Restores Good wrong M c) (N : Set ι) :
    Restores (fun s => Good s ∧ Disjoint (wrong s) N) wrong M c := by
  rintro s ⟨hs,hright⟩
  obtain ⟨a,s',hrun,hgood,hsub⟩ := h s hs
  exact ⟨a,s',hrun,⟨hgood,hright.mono_left (hsub.trans Set.sdiff_subset)⟩,hsub⟩

theorem bind (hc : Restores Good wrong N c) (hf : ∀ a, Restores Good wrong M (f a)) :
    Restores Good wrong (N ∪ M) (c >>= f) := hc.bind_after fun a => (hf a).keeps_right N

end Restores

end Mending
