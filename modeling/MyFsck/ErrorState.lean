import Mathlib.Logic.Basic
import Mathlib.Data.List.Basic

/-! Computations on a state that may stop with an error and keep the state they stopped in.
The run lemmas evaluate a computation whose first step is known; the triples describe every
way out of a computation, the erroneous ones included. -/
namespace ErrorState

variable {ε σ α β γ : Type}

theorem bind_ok {x : EStateM ε σ α} {f : α → EStateM ε σ β} {s s' : σ} {a : α}
    (h : x.run s = .ok a s') : (x >>= f).run s = (f a).run s' := by
  rw [EStateM.run_bind,h]

theorem bind_error {x : EStateM ε σ α} {f : α → EStateM ε σ β} {s s' : σ} {e : ε}
    (h : x.run s = .error e s') : (x >>= f).run s = .error e s' := by
  rw [EStateM.run_bind,h]

@[simp] theorem throw_run (e : ε) (s : σ) : (throw e : EStateM ε σ α).run s = .error e s := rfl

theorem bind_ok_inv {x : EStateM ε σ α} {f : α → EStateM ε σ β} {s s' : σ} {b : β}
    (h : (x >>= f).run s = .ok b s') : ∃ a t, x.run s = .ok a t ∧ (f a).run t = .ok b s' := by
  rw [EStateM.run_bind] at h
  cases hx : x.run s with
  | ok a t => exact ⟨a,t,rfl,by simpa [hx] using h⟩
  | error e t => simp [hx] at h

/-- `x` ends well in a state that passes the test `p`. -/
def endsIn (x : EStateM ε σ α) (s : σ) (p : α → σ → Bool) : Bool :=
  match x.run s with
  | .ok a s' => p a s'
  | .error _ _ => false

theorem exists_of_endsIn {x : EStateM ε σ α} {s : σ} {p : α → σ → Bool} (h : endsIn x s p = true) :
    ∃ a s', x.run s = .ok a s' ∧ p a s' = true := by
  unfold endsIn at h
  cases hx : x.run s with
  | ok a s' =>
    rw [hx] at h
    exact ⟨a,s',rfl,h⟩
  | error e s' => simp [hx] at h

theorem of_endsIn {x : EStateM ε σ α} {s s' : σ} {a : α} {p : α → σ → Bool}
    (h : endsIn x s p = true) (hx : x.run s = .ok a s') : p a s' = true := by
  rwa [endsIn,hx] at h

/-- `x` stops with the error `e`. -/
def stopsWith [DecidableEq ε] (x : EStateM ε σ α) (s : σ) (e : ε) : Bool :=
  match x.run s with
  | .ok _ _ => false
  | .error e' _ => decide (e' = e)

theorem exists_of_stopsWith [DecidableEq ε] {x : EStateM ε σ α} {s : σ} {e : ε}
    (h : stopsWith x s e = true) : ∃ s', x.run s = .error e s' := by
  unfold stopsWith at h
  cases hx : x.run s with
  | ok a s' => simp [hx] at h
  | error e' s' =>
    rw [hx] at h
    exact ⟨s',by rw [of_decide_eq_true h]⟩

theorem foldlM_stays {f : β → α → EStateM ε σ β} {b : β} {s : σ} {l : List α}
    (h : ∀ a ∈ l, (f b a).run s = .ok b s) : (l.foldlM f b).run s = .ok b s := by
  induction l with
  | nil => rfl
  | cons a l ih =>
    rw [List.foldlM_cons,bind_ok (h a (by simp))]
    exact ih fun c hc => h c (by simp [hc])

theorem foldlM_range'_inv {f : β → ℕ → EStateM ε σ β} (I : ℕ → β → σ → Prop) {first n : ℕ}
    (step : ∀ i b s, first ≤ i → i < first+n → I i b s →
      ∃ b' s', (f b i).run s = .ok b' s' ∧ I (i+1) b' s') {b : β} {s : σ} (h : I first b s) :
    ∃ b' s', ((List.range' first n).foldlM f b).run s = .ok b' s' ∧ I (first+n) b' s' := by
  induction n generalizing first b s with
  | zero => exact ⟨b,s,rfl,h⟩
  | succ n ih =>
    obtain ⟨b₁,s₁,h₁,hI₁⟩ := step first b s (Nat.le_refl _) (by omega) h
    obtain ⟨b₂,s₂,h₂,hI₂⟩ := ih (fun i b s hi hlt => step i b s (by omega) (by omega)) hI₁
    refine ⟨b₂,s₂,?_,?_⟩
    · rw [List.range'_succ,List.foldlM_cons,bind_ok h₁,h₂]
    · rwa [show first+(n+1) = first+1+n by omega]

theorem foldlM_ok_at {f : β → α → EStateM ε σ β} {P : β → Prop}
    (keep : ∀ b a s b' s', P b → (f b a).run s = .ok b' s' → P b') {l : List α} {b b' : β} {s s' : σ}
    (hb : P b) (h : (l.foldlM f b).run s = .ok b' s') {a : α} (ha : a ∈ l) :
    ∃ c t c' t', P c ∧ (f c a).run t = .ok c' t' := by
  induction l generalizing b s with
  | nil => simp at ha
  | cons x l ih =>
    rw [List.foldlM_cons] at h
    obtain ⟨c,t,hx,hl⟩ := bind_ok_inv h
    rcases List.mem_cons.mp ha with rfl | ha
    · exact ⟨b,s,c,t,hb,hx⟩
    · exact ih (keep b x s c t hb hx) hl ha

/-- The state a run reaches, whichever way it ends. -/
def endState (x : EStateM ε σ α) (s : σ) : σ :=
  match x.run s with
  | .ok _ s' => s'
  | .error _ s' => s'

theorem endState_ok {x : EStateM ε σ α} {s s' : σ} {a : α} (h : x.run s = .ok a s') :
    endState x s = s' := by
  unfold endState
  rw [h]

theorem endState_error {x : EStateM ε σ α} {s s' : σ} {e : ε} (h : x.run s = .error e s') :
    endState x s = s' := by
  unfold endState
  rw [h]

theorem endState_congr {x y : EStateM ε σ α} {s s' : σ} (h : x.run s = y.run s') :
    endState x s = endState y s' := by
  unfold endState
  rw [h]

theorem bind_congr_run {x y : EStateM ε σ α} {f : α → EStateM ε σ β} {s s' : σ}
    (h : x.run s = y.run s') : (x >>= f).run s = (y >>= f).run s' := by
  rw [EStateM.run_bind,h,EStateM.run_bind]

theorem endState_bind {x : EStateM ε σ α} {f : α → EStateM ε σ β} {s s' : σ} {a : α}
    (h : x.run s = .ok a s') : endState (x >>= f) s = endState (f a) s' := by
  unfold endState
  rw [bind_ok h]

/-- From every state in `P`, `x` ends well in `Q`, or stops with an error in a state in `E`. -/
def Triple (P : σ → Prop) (x : EStateM ε σ α) (Q : α → σ → Prop) (E : σ → Prop) : Prop :=
  ∀ s, P s → match x.run s with
    | .ok a s' => Q a s'
    | .error _ s' => E s'

namespace Triple

variable {P : σ → Prop} {Q : α → σ → Prop} {R : β → σ → Prop} {E : σ → Prop}

theorem pure {a : α} (h : ∀ s, P s → Q a s) : Triple P (Pure.pure a : EStateM ε σ α) Q E :=
  fun s hs => h s hs

theorem throw {e : ε} (h : ∀ s, P s → E s) : Triple P (MonadExcept.throw e : EStateM ε σ α) Q E :=
  fun s hs => h s hs

theorem bind {x : EStateM ε σ α} {f : α → EStateM ε σ β} (hx : Triple P x Q E)
    (hf : ∀ a, Triple (Q a) (f a) R E) : Triple P (x >>= f) R E := by
  intro s hs
  have h := hx s hs
  rw [EStateM.run_bind]
  cases he : x.run s with
  | ok a t =>
    rw [he] at h
    exact hf a t h
  | error e t =>
    rw [he] at h
    exact h

theorem weaken {x : EStateM ε σ α} {P' : σ → Prop} {Q' : α → σ → Prop} (h : Triple P x Q E)
    (hP : ∀ s, P' s → P s) (hQ : ∀ a s, Q a s → Q' a s) : Triple P' x Q' E := by
  intro s hs
  have h₁ := h s (hP s hs)
  cases he : x.run s with
  | ok a t =>
    rw [he] at h₁
    exact hQ a t h₁
  | error e t =>
    rw [he] at h₁
    exact h₁

theorem ite {c : Prop} [Decidable c] {x y : EStateM ε σ α} (hx : c → Triple P x Q E)
    (hy : ¬ c → Triple P y Q E) : Triple P (if c then x else y) Q E := by
  split
  · exact hx ‹_›
  · exact hy ‹_›

theorem of_pre {x : EStateM ε σ α} {p : Prop} (h : p → Triple P x Q E) :
    Triple (fun s => p ∧ P s) x Q E := fun s hs => h hs.1 s hs.2

theorem foldlM {f : β → α → EStateM ε σ β} {I : β → σ → Prop} (l : List α)
    (h : ∀ b, ∀ a ∈ l, Triple (I b) (f b a) I E) (b : β) : Triple (I b) (l.foldlM f b) I E := by
  induction l generalizing b with
  | nil => exact fun s hs => hs
  | cons a l ih =>
    rw [List.foldlM_cons]
    exact (h b a (by simp)).bind fun b' => ih (fun b a ha => h b a (by simp [ha])) b'

theorem conseq {x : EStateM ε σ α} {P' : σ → Prop} {Q' : α → σ → Prop} {E' : σ → Prop}
    (h : Triple P x Q E) (hP : ∀ s, P' s → P s) (hQ : ∀ a s, Q a s → Q' a s)
    (hE : ∀ s, E s → E' s) : Triple P' x Q' E' := by
  intro s hs
  have h₁ := h s (hP s hs)
  cases he : x.run s with
  | ok a t =>
    rw [he] at h₁
    exact hQ a t h₁
  | error e t =>
    rw [he] at h₁
    exact hE t h₁

theorem unless_stopped {x : EStateM ε σ α} (h : Triple P x Q E) : Triple P x Q fun _ => True :=
  h.conseq (fun _ hs => hs) (fun _ _ hs => hs) fun _ _ => trivial

end Triple

theorem Triple.endState {x : EStateM ε σ α} {P E : σ → Prop} (h : Triple P x (fun _ => E) E) {s : σ}
    (hs : P s) : E (endState x s) := by
  have h₁ := h s hs
  unfold ErrorState.endState
  cases he : x.run s with
  | ok a t =>
    rw [he] at h₁
    exact h₁
  | error e t =>
    rw [he] at h₁
    exact h₁

/-- `x` leaves the state alone, whichever way it ends. -/
def ReadOnly (x : EStateM ε σ α) : Prop :=
  ∀ s, (∃ a, x.run s = .ok a s) ∨ ∃ e, x.run s = .error e s

namespace ReadOnly

theorem pure (a : α) : ReadOnly (Pure.pure a : EStateM ε σ α) := fun _ => Or.inl ⟨a,rfl⟩

theorem throw (e : ε) : ReadOnly (MonadExcept.throw e : EStateM ε σ α) := fun _ => Or.inr ⟨e,rfl⟩

theorem bind {x : EStateM ε σ α} {f : α → EStateM ε σ β} (hx : ReadOnly x)
    (hf : ∀ a, ReadOnly (f a)) : ReadOnly (x >>= f) := by
  intro s
  rcases hx s with ⟨a,ha⟩ | ⟨e,he⟩
  · rw [bind_ok ha]
    exact hf a s
  · exact Or.inr ⟨e,bind_error he⟩

theorem foldlM {f : β → α → EStateM ε σ β} (l : List α) (h : ∀ b a, ReadOnly (f b a)) (b : β) :
    ReadOnly (l.foldlM f b) := by
  induction l generalizing b with
  | nil => exact pure b
  | cons a l ih =>
    rw [List.foldlM_cons]
    exact (h b a).bind ih

theorem triple {x : EStateM ε σ α} {P E : σ → Prop} (h : ReadOnly x) (hE : ∀ s, P s → E s) :
    Triple P x (fun _ => P) E := by
  intro s hs
  rcases h s with ⟨a,ha⟩ | ⟨e,he⟩
  · rw [ha]
    exact hs
  · rw [he]
    exact hE s hs

theorem keeps {x : EStateM ε σ α} {I : σ → Prop} (h : ReadOnly x) : Triple I x (fun _ => I) I :=
  h.triple fun _ hs => hs

theorem state_eq {x : EStateM ε σ α} (h : ReadOnly x) {s s' : σ} {a : α} (hr : x.run s = .ok a s') :
    s' = s := by
  rcases h s with ⟨b,hb⟩ | ⟨e,he⟩
  · rw [hb] at hr
    cases hr
    rfl
  · rw [he] at hr
    cases hr

theorem bind_inv {x : EStateM ε σ α} {f : α → EStateM ε σ β} (hx : ReadOnly x) {s s' : σ} {b : β}
    (h : (x >>= f).run s = .ok b s') : ∃ a, x.run s = .ok a s ∧ (f a).run s = .ok b s' := by
  obtain ⟨a,t,ha,hf⟩ := bind_ok_inv h
  obtain rfl := hx.state_eq ha
  exact ⟨a,ha,hf⟩

theorem foldlM_mem {f : β → α → EStateM ε σ β} (h : ∀ b a, ReadOnly (f b a)) {l : List α} {b r : β}
    {s s' : σ} (hr : (l.foldlM f b).run s = .ok r s') {a : α} (ha : a ∈ l) :
    ∃ b₁ b₂, (f b₁ a).run s = .ok b₂ s := by
  induction l generalizing b with
  | nil => cases ha
  | cons c l ih =>
    rw [List.foldlM_cons] at hr
    obtain ⟨b₁,t,hc,hl⟩ := bind_ok_inv hr
    obtain rfl := (h b c).state_eq hc
    rcases List.mem_cons.mp ha with rfl | ha
    · exact ⟨b,b₁,hc⟩
    · exact ih hl ha

end ReadOnly

/-- What a computation gives in a state, if it ends well there. -/
def valueIn (x : EStateM ε σ α) (s : σ) : Option α :=
  match x.run s with
  | .ok a _ => some a
  | .error _ _ => none

theorem valueIn_ok {x : EStateM ε σ α} {s s' : σ} {a : α} (h : x.run s = .ok a s') :
    valueIn x s = some a := by
  unfold valueIn
  rw [h]

theorem rel_bind {δ : Type} {R : α → β → Prop} {S : γ → δ → Prop} {o : Option α} {o' : Option β}
    {f : α → Option γ} {k : β → Option δ} (h : Option.Rel R o o')
    (hf : ∀ a b, R a b → Option.Rel S (f a) (k b)) : Option.Rel S (o >>= f) (o' >>= k) := by
  cases h with
  | some h => exact hf _ _ h
  | none => exact .none

theorem rel_same {o : Option α} {f : α → Option β} {k : α → Option γ} {S : β → γ → Prop}
    (h : ∀ a, Option.Rel S (f a) (k a)) : Option.Rel S (o >>= f) (o >>= k) := by
  cases o with
  | some a => exact h a
  | none => exact .none

/-- From states related by `I`, `x` and `y` end in the same way, well with results related by `R` or
with one error, and in states related by `I`. -/
def Alike {σ' : Type} (I : σ → σ' → Prop) (R : α → β → Prop) (x : EStateM ε σ α)
    (y : EStateM ε σ' β) : Prop :=
  ∀ s s', I s s' →
    (∃ a b t t', x.run s = .ok a t ∧ y.run s' = .ok b t' ∧ R a b ∧ I t t') ∨
    ∃ e t t', x.run s = .error e t ∧ y.run s' = .error e t' ∧ I t t'

namespace Alike

variable {σ' δ : Type} {I : σ → σ' → Prop} {R : α → β → Prop} {S : γ → δ → Prop}
  {x : EStateM ε σ α} {y : EStateM ε σ' β}

theorem pure {a : α} {b : β} (h : R a b) :
    Alike I R (Pure.pure a : EStateM ε σ α) (Pure.pure b : EStateM ε σ' β) :=
  fun s s' hs => Or.inl ⟨a,b,s,s',rfl,rfl,h,hs⟩

theorem throw (e : ε) :
    Alike I R (MonadExcept.throw e : EStateM ε σ α) (MonadExcept.throw e : EStateM ε σ' β) :=
  fun s s' hs => Or.inr ⟨e,s,s',rfl,rfl,hs⟩

theorem bind {f : α → EStateM ε σ γ} {k : β → EStateM ε σ' δ} (h : Alike I R x y)
    (hf : ∀ a b, R a b → Alike I S (f a) (k b)) : Alike I S (x >>= f) (y >>= k) := by
  intro s s' hs
  rcases h s s' hs with ⟨a,b,t,t',hx,hy,hab,ht⟩ | ⟨e,t,t',hx,hy,ht⟩
  · rw [bind_ok hx,bind_ok hy]
    exact hf a b hab t t' ht
  · exact Or.inr ⟨e,t,t',bind_error hx,bind_error hy,ht⟩

theorem mono {R' : α → β → Prop} (h : Alike I R x y) (hR : ∀ a b, R a b → R' a b) :
    Alike I R' x y := by
  intro s s' hs
  rcases h s s' hs with ⟨a,b,t,t',hx,hy,hab,ht⟩ | herr
  · exact Or.inl ⟨a,b,t,t',hx,hy,hR a b hab,ht⟩
  · exact Or.inr herr

theorem value {s₀ : σ} (h : Alike I R x y) (hI : ∀ s s', I s s' → valueIn x s = valueIn x s₀) :
    Alike I (fun a b => valueIn x s₀ = some a ∧ R a b) x y := by
  intro s s' hs
  rcases h s s' hs with ⟨a,b,t,t',hx,hy,hab,ht⟩ | herr
  · exact Or.inl ⟨a,b,t,t',hx,hy,⟨(hI s s' hs).symm.trans (valueIn_ok hx),hab⟩,ht⟩
  · exact Or.inr herr

theorem valueIn_eq {y : EStateM ε σ' α} (h : Alike I Eq x y) {s : σ} {s' : σ'} (hs : I s s') :
    valueIn x s = valueIn y s' := by
  rcases h s s' hs with ⟨a,b,t,t',hx,hy,rfl,_⟩ | ⟨e,t,t',hx,hy,_⟩
  · rw [valueIn_ok hx,valueIn_ok hy]
  · unfold valueIn
    rw [hx,hy]

theorem bind_same {x : EStateM ε σ α} {y : EStateM ε σ' α} {f : α → EStateM ε σ γ}
    {k : α → EStateM ε σ' δ} (h : Alike I Eq x y) (hf : ∀ a, Alike I S (f a) (k a)) :
    Alike I S (x >>= f) (y >>= k) :=
  h.bind fun a b hab => by
    subst hab
    exact hf a

theorem foldlM {f : α → γ → EStateM ε σ α} {k : β → γ → EStateM ε σ' β} (l : List γ)
    (h : ∀ c ∈ l, ∀ a b, R a b → Alike I R (f a c) (k b c)) {a : α} {b : β} (hab : R a b) :
    Alike I R (l.foldlM f a) (l.foldlM k b) := by
  induction l generalizing a b with
  | nil => exact .pure hab
  | cons c l ih =>
    rw [List.foldlM_cons,List.foldlM_cons]
    exact (h c (by simp) a b hab).bind fun a' b' hab' => ih (fun c' hc' => h c' (by simp [hc'])) hab'

end Alike

end ErrorState
