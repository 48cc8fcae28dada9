import MyFsck.ErrorState
import Mathlib.Computability.Language
import Mathlib.Order.CompletePartialOrder

/-! Computations on a state with an output that only grows: the language of what they add to it.
A run that stops has added the beginning of a word. -/
namespace Outputs

open ErrorState Computability

variable {ε σ α β γ ω : Type}

/-- The beginnings of the words of `L`. -/
def beginnings (L : Language ω) : Language ω := {w | ∃ v, w++v ∈ L}

theorem beginnings_of_mem {L : Language ω} {w : List ω} (h : w ∈ L) : w ∈ beginnings L :=
  ⟨[],by rwa [List.append_nil]⟩

/-- To the output `out`, `x` adds a word of `L a` if it ends well with `a`, and the beginning of one
if it stops. -/
structure Prints (out : σ → List ω) (x : EStateM ε σ α) (L : α → Language ω) : Prop where
  inhabited : ∃ a w, w ∈ L a
  run : ∀ s, match x.run s with
    | .ok a t => ∃ w ∈ L a, out t = out s ++ w
    | .error _ t => ∃ a, ∃ w ∈ beginnings (L a), out t = out s ++ w

namespace Prints

variable {out : σ → List ω} {x : EStateM ε σ α} {f : α → EStateM ε σ β} {L M : α → Language ω}

theorem pure {a : α} (h : [] ∈ L a) : Prints out (Pure.pure a : EStateM ε σ α) L where
  inhabited := ⟨a,[],h⟩
  run s := ⟨[],h,by rw [List.append_nil]⟩

theorem of_readOnly [Nonempty α] (h : ReadOnly x) (hL : ∀ a, [] ∈ L a) : Prints out x L where
  inhabited := by
    obtain ⟨a⟩ := ‹Nonempty α›
    exact ⟨a,[],hL a⟩
  run s := by
    rcases h s with ⟨a,ha⟩ | ⟨e,he⟩
    · rw [ha]
      exact ⟨[],hL a,by rw [List.append_nil]⟩
    · obtain ⟨a⟩ := ‹Nonempty α›
      rw [he]
      exact ⟨a,[],beginnings_of_mem (hL a),by rw [List.append_nil]⟩

theorem throw [Nonempty α] {e : ε} (hL : ∀ a, [] ∈ L a) :
    Prints out (MonadExcept.throw e : EStateM ε σ α) L := .of_readOnly (.throw e) hL

theorem mono (h : Prints out x L) (hLM : ∀ a, L a ≤ M a) : Prints out x M where
  inhabited := by
    obtain ⟨a,w,hw⟩ := h.inhabited
    exact ⟨a,w,hLM a hw⟩
  run s := by
    have hs := h.run s
    cases hx : x.run s with
    | ok a t =>
      rw [hx] at hs
      obtain ⟨w,hw,ht⟩ := hs
      exact ⟨w,hLM a hw,ht⟩
    | error e t =>
      rw [hx] at hs
      obtain ⟨a,w,⟨v,hv⟩,ht⟩ := hs
      exact ⟨a,w,⟨v,hLM a hv⟩,ht⟩

theorem bind {K : α → β → Language ω} {N : β → Language ω} (hx : Prints out x L)
    (hf : ∀ a, Prints out (f a) (K a)) (hN : ∀ a b, L a*K a b ≤ N b) : Prints out (x >>= f) N where
  inhabited := by
    obtain ⟨a,w,hw⟩ := hx.inhabited
    obtain ⟨b,v,hv⟩ := (hf a).inhabited
    exact ⟨b,w++v,hN a b (Language.append_mem_mul hw hv)⟩
  run s := by
    have hs := hx.run s
    rw [EStateM.run_bind]
    cases he : x.run s with
    | error e t =>
      rw [he] at hs
      obtain ⟨a,w,⟨v,hv⟩,ht⟩ := hs
      obtain ⟨b,u,hu⟩ := (hf a).inhabited
      refine ⟨b,w,⟨v++u,?_⟩,ht⟩
      rw [← List.append_assoc]
      exact hN a b (Language.append_mem_mul hv hu)
    | ok a t =>
      rw [he] at hs
      obtain ⟨w,hw,ht⟩ := hs
      have hr := (hf a).run t
      dsimp only
      cases hb : (f a).run t with
      | ok b t' =>
        rw [hb] at hr
        obtain ⟨v,hv,ht'⟩ := hr
        exact ⟨w++v,hN a b (Language.append_mem_mul hw hv),by rw [ht',ht,List.append_assoc]⟩
      | error e t' =>
        rw [hb] at hr
        obtain ⟨b,v,⟨u,hu⟩,ht'⟩ := hr
        refine ⟨b,w++v,⟨u,?_⟩,by rw [ht',ht,List.append_assoc]⟩
        rw [List.append_assoc]
        exact hN a b (Language.append_mem_mul hw hu)

theorem bind_silent {K : β → Language ω} [Nonempty α] (hx : ReadOnly x)
    (hf : ∀ a, Prints out (f a) K) : Prints out (x >>= f) K :=
  (of_readOnly (L := fun _ => 1) hx fun _ => rfl).bind hf fun _ b => (one_mul (K b)).le

theorem ite {c : Prop} [Decidable c] {x y : EStateM ε σ α} (hx : c → Prints out x L)
    (hy : ¬ c → Prints out y L) : Prints out (if c then x else y) L := by
  split
  · exact hx ‹_›
  · exact hy ‹_›

theorem foldlM_kstar {K : Language ω} {f : β → γ → EStateM ε σ β} (l : List γ)
    (h : ∀ b, ∀ c ∈ l, Prints out (f b c) fun _ => K∗) (b : β) :
    Prints out (l.foldlM f b) fun _ => K∗ := by
  induction l generalizing b with
  | nil => exact .pure (Language.nil_mem_kstar K)
  | cons c l ih =>
    rw [List.foldlM_cons]
    exact (h b c (by simp)).bind (fun b' => ih (fun b a ha => h b a (by simp [ha])) b')
      fun _ _ => (kstar_mul_kstar K).le

theorem foldlM_words {word : γ → List ω} {f : β → γ → EStateM ε σ β} (l : List γ)
    (h : ∀ b c, Prints out (f b c) fun _ => {word c}) (b : β) :
    Prints out (l.foldlM f b) fun _ => {l.flatMap word} := by
  induction l generalizing b with
  | nil => exact .pure rfl
  | cons c l ih =>
    rw [List.foldlM_cons]
    refine (h b c).bind (fun b' => ih b') fun _ _ w hw => ?_
    obtain ⟨u,rfl,v,rfl,rfl⟩ := Language.mem_mul.mp hw
    rfl

theorem foldlM_rel {K : β → β → Language ω} {f : β → γ → EStateM ε σ β} (hnil : ∀ b, [] ∈ K b b)
    (hK : ∀ b c d, K b c*K c d ≤ K b d) (l : List γ) (h : ∀ b, ∀ c ∈ l, Prints out (f b c) (K b))
    (b : β) : Prints out (l.foldlM f b) (K b) := by
  induction l generalizing b with
  | nil => exact .pure (hnil b)
  | cons c l ih =>
    rw [List.foldlM_cons]
    exact (h b c (by simp)).bind (fun b' => ih (fun b a ha => h b a (by simp [ha])) b')
      fun b' d => hK b b' d

end Prints

end Outputs
