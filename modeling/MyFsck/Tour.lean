import MyFsck.Walks
import MyFsck.Frames

/-! What a walk expands. A walk through a graph with no memory of where it has been expands the
unfolding of the graph, node by node, if it comes to its end; the rules here follow the constructs
the walkers are made of. -/
namespace MyFsck

open ByteBuffer ErrorState Unfolding

/-- A walk of the graph `kids`: which nodes leave a note, which ones may be noted at all, and the
faults the walk may stop with. -/
structure Tour where
  kids : ℕ → List ℕ
  shown : ℕ → Bool
  fine : ℕ → Prop
  stops : Fault → Prop

namespace Tour

variable (w : Tour)

/-- An inode was expanded that is not fine. -/
def Strays (d : Device) : Prop := ∃ y ∈ expanded d.out, ¬ w.fine y

/-- From every state in `P`, `c` walks from each of `ws` and ends in `Q` with the nodes it went
through noted in order, or it strays, or it stops. -/
def Walked {σ τ : Type} (P : σ → Device → Prop) (ws : List ℕ) (c : σ → Fsck τ)
    (Q : τ → Device → Prop) : Prop :=
  ∀ s d, P s d →
    (∃ l t d', Unfolds w.kids ws l ∧ (c s).run d = .ok t d' ∧ Q t d' ∧
      expanded d'.out = expanded d.out ++ l.filter w.shown) ∨
    w.Strays (endState (c s) d) ∨ ∃ e d', w.stops e ∧ (c s).run d = .error e d'

/-- A note shows `x` if the walk shows it, and touches nothing else. -/
def Notes (note : ℕ → Fsck Unit) (x : ℕ) : Prop :=
  ∀ d, ∃ d', (note x).run d = .ok () d' ∧ d'.image = d.image ∧
    expanded d'.out = expanded d.out ++ [x].filter w.shown

variable {w} {σ τ ρ : Type} {P : σ → Device → Prop} {Q : τ → Device → Prop} {R : ρ → Device → Prop}
  {ws vs : List ℕ} {c : σ → Fsck τ}

theorem Strays.mono {d d' : Device} (h : w.Strays d) (hd : d.out <+: d'.out) : w.Strays d' := by
  obtain ⟨y,hy,hno⟩ := h
  obtain ⟨l,hl⟩ := hd
  exact ⟨y,by rw [← hl,expanded_append]; exact List.mem_append_left _ hy,hno⟩

theorem notes_silent (h : w.shown = fun _ => false) (x : ℕ) : w.Notes silent x :=
  fun d => ⟨d,rfl,rfl,by simp [h]⟩

theorem notes_written {x : ℕ} (h : w.shown x = true) : w.Notes written x :=
  fun d => ⟨_,print_run _ d,rfl,by simp [h,expanded]⟩

variable (w) in
/-- The walk below `x` is not deeper than `fuel`, or it may stop when the fuel is used up. -/
def Enough (fuel x : ℕ) : Prop :=
  w.stops .outOfFuel ∨ ∃ l, Unfolds w.kids [x] l ∧ l.length ≤ fuel

theorem Enough.zero {x : ℕ} (h : w.Enough 0 x) : w.stops .outOfFuel := by
  rcases h with h | ⟨l,hl,hle⟩
  · exact h
  · obtain ⟨m,rfl,_⟩ := hl.node_inv
    simp at hle

theorem Enough.kid {fuel x k : ℕ} (h : w.Enough (fuel+1) x) (hk : k ∈ w.kids x) :
    w.Enough fuel k := by
  rcases h with h | ⟨l,hl,hle⟩
  · exact Or.inl h
  · obtain ⟨m,rfl,hm⟩ := hl.node_inv
    obtain ⟨m',hm',hsub⟩ := hm.sub_unfolds (hm.starts_mem k hk)
    have hlen := hsub.length_le
    rw [List.length_cons] at hle
    exact Or.inr ⟨m',hm',by omega⟩

namespace Walked

theorem step (h : ∀ s d, P s d → ∃ t d', (c s).run d = .ok t d' ∧ Q t d' ∧
    expanded d'.out = expanded d.out) : w.Walked P [] c Q := by
  intro s d hs
  obtain ⟨t,d',hr,hq,hout⟩ := h s d hs
  exact Or.inl ⟨[],t,d',.nil,hr,hq,by simpa using hout⟩

theorem pure {f : σ → τ} (h : ∀ s d, P s d → Q (f s) d) : w.Walked P [] (fun s => Pure.pure (f s)) Q :=
  step fun s d hs => ⟨f s,d,rfl,h s d hs,rfl⟩

theorem congr {c' : σ → Fsck τ} (h : w.Walked P ws c' Q)
    (he : ∀ s d, P s d → (c s).run d = (c' s).run d) : w.Walked P ws c Q := by
  intro s d hs
  have h₁ := h s d hs
  rw [endState_congr (he s d hs),he s d hs]
  exact h₁

theorem bind {f : τ → Fsck ρ} (hc : w.Walked P ws c Q) (hf : w.Walked Q vs f R)
    (hk : ∀ t, KeepsLog (f t)) : w.Walked P (ws++vs) (fun s => c s >>= f) R := by
  intro s d hs
  rcases hc s d hs with ⟨l,t,d₁,hu,hr,hq,hout⟩ | hstray | ⟨e,d₁,he,hr⟩
  · rw [endState_bind hr,bind_ok hr]
    rcases hf t d₁ hq with ⟨m,r,d₂,hu',hr',hq',hout'⟩ | hstray | hstop
    · exact Or.inl ⟨l++m,r,d₂,hu.append hu',hr',hq',by simp [hout',hout,List.append_assoc]⟩
    · exact Or.inr (Or.inl hstray)
    · exact Or.inr (Or.inr hstop)
  · exact Or.inr (Or.inl (hstray.mono (endState_bind_log hk (List.prefix_refl _))))
  · exact Or.inr (Or.inr ⟨e,d₁,he,bind_error hr⟩)

theorem node {note : ℕ → Fsck Unit} {x : ℕ} (hn : w.Notes note x)
    (hP : ∀ s d d', P s d → d'.image = d.image → P s d') (h : w.Walked P (w.kids x) c Q) :
    w.Walked P [x] (fun s => note x >>= fun _ => c s) Q := by
  intro s d hs
  obtain ⟨d₁,hr,himg,hout⟩ := hn d
  dsimp only
  rw [endState_bind hr,bind_ok hr]
  rcases h s d₁ (hP s d d₁ hs himg) with ⟨l,t,d₂,hu,hr',hq,hout'⟩ | h₁
  · refine Or.inl ⟨x::l,t,d₂,.node hu,hr',hq,?_⟩
    rw [hout',hout,List.append_assoc,← List.filter_append]
    rfl
  · exact Or.inr h₁

theorem leaf {x : ℕ} (hk : w.kids x = []) (hs : w.shown x = false)
    (h : ∀ s d, P s d → (∃ t d', (c s).run d = .ok t d' ∧ Q t d' ∧
      expanded d'.out = expanded d.out) ∨ ∃ e d', w.stops e ∧ (c s).run d = .error e d') :
    w.Walked P [x] c Q := by
  intro s d hd
  rcases h s d hd with ⟨t,d',hr,hq,hout⟩ | hstop
  · refine Or.inl ⟨[x],t,d',.node (l := []) (by rw [hk]; exact .nil),hr,hq,?_⟩
    simp [hs,hout]
  · exact Or.inr (Or.inr hstop)

theorem stray {x : ℕ} (hx : ¬ w.fine x) (hk : ∀ s, KeepsLog (c s)) :
    w.Walked P ws (fun s => written x >>= fun _ => c s) Q := by
  intro s d _
  refine Or.inr (Or.inl ⟨x,?_,hx⟩)
  have hr : (written x).run d = .ok () _ := print_run _ d
  dsimp only
  rw [endState_bind hr]
  obtain ⟨l,hl⟩ :=
    @KeepsLog.endState _ _ (hk s) _ ⟨d.image,d.out ++ [.expand x]⟩ (List.prefix_refl _)
  rw [← hl]
  simp [expanded]

theorem frame {F : σ → Prop} {I : Device → Prop} {y : Fsck Unit}
    (h : w.Walked (fun _ : Unit => I) ws (fun _ => y) fun _ => I) :
    w.Walked (fun s d => F s ∧ I d) ws (fun s => y >>= fun _ => Pure.pure s) fun s d => F s ∧ I d := by
  intro s d hs
  rcases h () d hs.2 with ⟨l,u,d',hu,hr,hi,hout⟩ | hstray | ⟨e,d',he,hr⟩
  · exact Or.inl ⟨l,s,d',hu,by rw [bind_ok hr]; rfl,⟨hs.1,hi⟩,hout⟩
  · exact Or.inr (Or.inl (hstray.mono (endState_bind_log (fun _ => .of_readOnly (.pure s))
      (List.prefix_refl _))))
  · exact Or.inr (Or.inr ⟨e,d',he,bind_error hr⟩)

theorem weaken {P' : σ → Device → Prop} {Q' : τ → Device → Prop} (h : w.Walked P ws c Q)
    (hP : ∀ s d, P' s d → P s d) (hQ : ∀ t d, Q t d → Q' t d) : w.Walked P' ws c Q' := by
  intro s d hs
  rcases h s d (hP s d hs) with ⟨l,t,d',hu,hr,hq,hout⟩ | hrest
  · exact Or.inl ⟨l,t,d',hu,hr,hQ t d' hq,hout⟩
  · exact Or.inr hrest

theorem stop {e : Fault} (he : w.stops e) : w.Walked P ws (fun _ => throw e) Q :=
  fun _ d _ => Or.inr (Or.inr ⟨e,d,he,rfl⟩)

end Walked

/-- The inodes a walk goes to from the entries of a block, the first of which stands at `count`. -/
def picked (pick : ℕ → DirEntry → Bool) : ℕ → List (ℕ × DirEntry) → List ℕ
  | _, [] => []
  | count, (_,e)::es => (if pick count e then [e.inode] else []) ++ picked pick (count+1) es

/-- The same for the blocks of a directory. -/
def gathered (own : ℕ → ℕ → List ℕ) : ℕ → List ℕ → List ℕ
  | _, [] => []
  | i, b::bs => own i b ++ gathered own (i+1) bs

theorem picked_sublist {pick pick' : ℕ → DirEntry → Bool}
    (h : ∀ count e, pick count e = true → pick' count e = true) (count : ℕ)
    (es : List (ℕ × DirEntry)) : (picked pick count es).Sublist (picked pick' count es) := by
  induction es generalizing count with
  | nil => exact .refl _
  | cons p es ih =>
    obtain ⟨o,e⟩ := p
    refine List.Sublist.append ?_ (ih (count+1))
    cases hp : pick count e with
    | true => simp [h count e hp]
    | false => simp

theorem mem_gathered {own : ℕ → ℕ → List ℕ} {i b k : ℕ} {bs : List ℕ} (hb : b ∈ bs)
    (hk : ∀ i, k ∈ own i b) : k ∈ gathered own i bs := by
  induction bs generalizing i with
  | nil => simp at hb
  | cons c bs ih =>
    rw [gathered,List.mem_append]
    rcases List.mem_cons.mp hb with rfl | hb
    · exact Or.inl (hk i)
    · exact Or.inr (ih hb)

theorem gathered_sublist {own own' : ℕ → ℕ → List ℕ} (h : ∀ i b, (own i b).Sublist (own' i b)) (i : ℕ)
    (bs : List ℕ) : (gathered own i bs).Sublist (gathered own' i bs) := by
  induction bs generalizing i with
  | nil => exact .refl _
  | cons b bs ih => exact (h i b).append (ih (i+1))

theorem foldEntries_keepsLog {body : ℕ → ℕ → DirEntry → σ → Fsck σ}
    (h : ∀ count off e s, KeepsLog (body count off e s)) (count : ℕ) (es : List (ℕ × DirEntry))
    (s : σ) : KeepsLog (foldEntries body count es s) := by
  induction es generalizing count s with
  | nil => exact .of_readOnly (.pure _)
  | cons p es ih => exact (h count p.1 p.2 s).bind fun s' => ih (count+1) s'

theorem foldBlocks_keepsLog {body : ℕ → ℕ → σ → Fsck σ} (h : ∀ i b s, KeepsLog (body i b s)) (i : ℕ)
    (bs : List ℕ) (s : σ) : KeepsLog (foldBlocks body i bs s) := by
  induction bs generalizing i s with
  | nil => exact .of_readOnly (.pure _)
  | cons b bs ih => exact (h i b s).bind fun s' => ih (i+1) s'

namespace Walked

variable {pick : ℕ → DirEntry → Bool} {body : ℕ → ℕ → DirEntry → σ → Fsck σ}

theorem entries {J : ℕ → List (ℕ × DirEntry) → σ → Device → Prop}
    (hk : ∀ count off e s, KeepsLog (body count off e s)) (es : List (ℕ × DirEntry)) (count : ℕ)
    (hstep : ∀ n o e rest, (o,e) ∈ es → (pick n e = true → e.inode ∈ picked pick count es) →
      w.Walked (J n ((o,e)::rest)) (if pick n e then [e.inode] else []) (body n o e) (J (n+1) rest)) :
    w.Walked (J count es) (picked pick count es) (foldEntries body count es)
      (J (count+es.length) []) := by
  induction es generalizing count with
  | nil => exact pure fun _ _ h => h
  | cons p es ih =>
    obtain ⟨o,e⟩ := p
    have hrest := ih (count+1) fun n o e rest he hpick => hstep n o e rest (by simp [he])
      fun hp => List.mem_append_right _ (hpick hp)
    have hlen : count+1+es.length = count+((o,e)::es).length := by
      rw [List.length_cons]
      omega
    rw [hlen] at hrest
    have hfirst := hstep count o e es (by simp) fun hp => by simp [picked,hp]
    exact hfirst.bind hrest fun s => foldEntries_keepsLog hk _ _ _

theorem blocks {P : σ → Device → Prop} {own : ℕ → ℕ → List ℕ} {enter : ℕ → ℕ → σ → Fsck σ}
    (hk : ∀ i b s, KeepsLog (enter i b s)) (bs : List ℕ) (i : ℕ)
    (hstep : ∀ n, ∀ b ∈ bs, (∀ k ∈ own n b, k ∈ gathered own i bs) →
      w.Walked P (own n b) (enter n b) P) :
    w.Walked P (gathered own i bs) (foldBlocks enter i bs) P := by
  induction bs generalizing i with
  | nil => exact pure fun _ _ h => h
  | cons b bs ih =>
    have hrest := ih (i+1) fun n b hb hown => hstep n b (by simp [hb]) fun k hk =>
      List.mem_append_right _ (hown k hk)
    have hfirst := hstep i b (by simp) fun k hk => List.mem_append_left _ hk
    exact hfirst.bind hrest fun s => foldBlocks_keepsLog hk _ _ _

end Walked

theorem picked_nonDot {pick : ℕ → DirEntry → Bool} {p : DirEntry → Bool} {i : ℕ}
    (h : ∀ count e, pick count e = (decide (i ≠ 0 ∨ 2 ≤ count) && p e)) (count : ℕ)
    (es : List (ℕ × DirEntry)) :
    picked pick count es = ((nonDotFrom i count es).filter p).map DirEntry.inode := by
  induction es generalizing count with
  | nil => rfl
  | cons q es ih =>
    obtain ⟨o,e⟩ := q
    rw [picked,ih,h,nonDotFrom]
    by_cases hc : i ≠ 0 ∨ 2 ≤ count
    · cases hp : p e <;> simp [hc,hp]
    · simp [hc]

theorem gathered_nonDot {g : Globals} {img : Buf} {own : ℕ → ℕ → List ℕ} {p : DirEntry → Bool}
    (h : ∀ i b, own i b = ((nonDotFrom i 0 (entriesOf (g.blockAt img b))).filter p).map
      DirEntry.inode) (i : ℕ) (bs : List ℕ) :
    gathered own i bs = ((nonDotBlocks i (bs.map fun b => entriesOf (g.blockAt img b))).filter
      p).map DirEntry.inode := by
  induction bs generalizing i with
  | nil => rfl
  | cons b bs ih => simp [gathered,nonDotBlocks,h,ih]

end Tour

end MyFsck
