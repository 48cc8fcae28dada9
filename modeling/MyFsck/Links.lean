import MyFsck.LostFound

/-! The links of a directory: of each entry the inode number, and whether it has the type of a
directory. What the walks do depends on a directory through its links only. -/
namespace MyFsck

open ByteBuffer ErrorState

section Lists

variable {α : Type*}

/-- All elements but the first two of the first list. -/
def dropDots : List (List α) → List α
  | [] => []
  | l::ls => l.drop 2 ++ ls.flatten

/-- `l'` is `l` with the elements of `new` put, one after the other, behind the last element of one of
its lists. -/
inductive Gains : List (List α) → List α → List (List α) → Prop
  | refl {l : List (List α)} : Gains l [] l
  | step {l pre post : List (List α)} {a new : List α} {x : α} :
      Gains l new (pre++a::post) → Gains l (new++[x]) (pre++(a++[x])::post)

namespace Gains

variable {l l' : List (List α)} {new : List α}

theorem flatten_perm (h : Gains l new l') : l'.flatten.Perm (l.flatten++new) := by
  induction h with
  | refl => simp
  | @step pre post a new x _ ih =>
    have h₁ : (pre++(a++[x])::post).flatten.Perm ((pre++a::post).flatten++[x]) := by
      simp only [List.flatten_append,List.flatten_cons,List.append_assoc]
      exact (List.perm_append_comm.append_left _).append_left _
    refine h₁.trans ?_
    rw [← List.append_assoc]
    exact ih.append_right _

theorem dropDots_perm (h : Gains l new l') {x y : α} {t : List α} {ls : List (List α)}
    (hl : l = (x::y::t)::ls) : ∃ t' ls', l' = (x::y::t')::ls' ∧
      (dropDots l').Perm (dropDots l++new) := by
  induction h with
  | refl => exact ⟨t,ls,hl,by simp⟩
  | @step pre post a new z _ ih =>
    obtain ⟨t',ls',h',hp⟩ := ih
    have hstep : ∀ m m' : List α, m.Perm (m'++[z]) → m'.Perm (dropDots l++new) →
        m.Perm (dropDots l++(new++[z])) := by
      intro m m' h₁ h₂
      rw [← List.append_assoc]
      exact h₁.trans (h₂.append_right _)
    cases pre with
    | nil =>
      simp only [List.nil_append,List.cons.injEq] at h'
      obtain ⟨rfl,rfl⟩ := h'
      refine ⟨t'++[z],post,rfl,hstep _ _ ?_ hp⟩
      simp only [List.nil_append,dropDots,List.cons_append,List.drop_succ_cons,List.drop_zero,
        List.append_assoc]
      exact (List.perm_append_singleton z _).symm.append_left _
    | cons p pre =>
      simp only [List.cons_append,List.cons.injEq] at h'
      obtain ⟨rfl,rfl⟩ := h'
      refine ⟨t',pre++(a++[z])::post,rfl,hstep _ _ ?_ hp⟩
      simp only [List.cons_append,dropDots,List.flatten_append,List.flatten_cons,List.append_assoc,
        List.nil_append]
      exact (((List.perm_append_singleton z _).symm.append_left _).append_left _).append_left _

theorem trans {m : List (List α)} {new' : List α} (h : Gains l new l') (h' : Gains l' new' m) :
    Gains l (new++new') m := by
  induction h' with
  | refl => simpa using h
  | step _ ih =>
    rw [← List.append_assoc]
    exact .step ih

end Gains

/-- The second element of the first list replaced. -/
def setSecond (f : α → α) : List (List α) → List (List α)
  | (x::y::t)::ls => (x::f y::t)::ls
  | l => l

theorem dropDots_setSecond (f : α → α) (l : List (List α)) :
    dropDots (setSecond f l) = dropDots l := by
  unfold setSecond
  split <;> rfl

theorem map_split {β : Type*} {f f' : α → β} {l : List α} {a : α} (ha : a ∈ l) (hnd : l.Nodup)
    (h : ∀ c ∈ l, c ≠ a → f' c = f c) :
    ∃ pre post, l.map f = pre++f a::post ∧ l.map f' = pre++f' a::post := by
  obtain ⟨pre,post,rfl⟩ := List.append_of_mem ha
  obtain ⟨_,hnd₂,hdis⟩ := List.nodup_append.mp hnd
  have hpre : pre.map f' = pre.map f := List.map_congr_left fun c hc =>
    h c (by simp [hc]) (hdis c hc a (by simp))
  have hpost : post.map f' = post.map f := List.map_congr_left fun c hc =>
    h c (by simp [hc]) (by rintro rfl; exact (List.nodup_cons.mp hnd₂).1 hc)
  refine ⟨pre.map f,post.map f,by rw [List.map_append,List.map_cons],?_⟩
  rw [List.map_append,List.map_cons,hpre,hpost]

end Lists

def linkOf (p : ℕ × DirEntry) : ℕ × Bool := (p.2.inode,dirIsDir p.2)

section Links

variable (g : Globals) (img : Buf)

/-- The links of a directory, block by block. -/
def Globals.links (x : ℕ) : List (List (ℕ × Bool)) :=
  (g.dirEntries img x).map fun es => es.map linkOf

end Links

section Views

variable {g : Globals} {img img' : Buf} {x : ℕ}

theorem nonDotBlocks_later {i : ℕ} (hi : i ≠ 0) (ls : List (List (ℕ × DirEntry))) :
    nonDotBlocks i ls = ls.flatten.map Prod.snd := by
  induction ls generalizing i with
  | nil => rfl
  | cons es ls ih => rw [nonDotBlocks,nonDotFrom_later hi,ih (Nat.succ_ne_zero i),List.flatten_cons,
      List.map_append]

theorem nonDot_links : (g.nonDot img x).map (fun e => (e.inode,dirIsDir e)) =
    dropDots (g.links img x) := by
  rw [Globals.nonDot,Globals.links]
  cases g.dirEntries img x with
  | nil => rfl
  | cons es ls =>
    rw [nonDotBlocks,nonDotBlocks_later Nat.one_ne_zero,nonDotFrom_drop,List.map_cons,dropDots,
      List.map_append,List.map_map,List.map_map,List.map_drop,← List.map_flatten]
    rfl

theorem named_links : g.named img x = (g.links img x).flatten.map Prod.fst := by
  rw [Globals.named,Globals.links,← List.map_flatten,List.map_map]
  rfl

theorem nonDot_inodes : (g.nonDot img x).map DirEntry.inode = (dropDots (g.links img x)).map Prod.fst := by
  rw [← nonDot_links,List.map_map]
  rfl

theorem subdirs_links :
    g.subdirs img x = ((dropDots (g.links img x)).filter Prod.snd).map Prod.fst := by
  rw [← nonDot_links,Globals.subdirs,List.filter_map,List.map_map]
  rfl

end Views

theorem Extended.links {new : DirEntry} {b b' : Buf} (h : Extended new b b') : LiveBlock b' ∧
    (entriesOf b').map linkOf = (entriesOf b).map linkOf++[(new.inode,dirIsDir new)] := by
  obtain ⟨init,o,e,he,hlive,_,he'⟩ := h
  refine ⟨hlive,?_⟩
  rw [he,he']
  simp [linkOf,dirIsDir]

theorem Grown.links {new : DirEntry} {b b' : Buf} (h : Grown new b b') :
    WellFormedBlock b' ∧ ((entriesOf b').map linkOf = (entriesOf b).map linkOf ∨
      (entriesOf b').map linkOf = (entriesOf b).map linkOf++[(new.inode,dirIsDir new)]) := by
  rcases h with ⟨hwf,he⟩ | hext
  · exact ⟨hwf,Or.inl (by rw [he])⟩
  · exact ⟨hext.links.1.wellFormed,Or.inr hext.links.2⟩

theorem setSecond_block {b : Buf} (h : WellFormedBlock b) {e₀ e₁ : DirEntry}
    {es : List (ℕ × DirEntry)} (he : entriesOf b = (0,e₀)::(12,e₁)::es) {v : ℕ} (hv : 0 < v)
    (hv' : v < 2^32) : WellFormedBlock (b.putNum firstEntryLen v 4) ∧
      entriesOf (b.putNum firstEntryLen v 4) = (0,e₀)::(12,{ e₁ with inode := v })::es := by
  have hc : Chain b 0 ([(0,e₀)] ++ (12,e₁)::es) := by
    rw [List.singleton_append,← he]
    exact h
  exact (hc.setInode hv hv').wellFormed.symm

section Effects

variable {g : Globals} {img img' : Buf}

theorem setBlock_links (hg : Geometry g) {L b : ℕ} {blk : Buf} (hs : blk.size = g.blockSize)
    (hb : b ∈ g.dirBlocks img L) (hnd : (g.dirBlocks img L).Nodup)
    (htable : ∀ b ∈ g.dirBlocks img L, b ≠ g.inodeBlock L) :
    g.dirBlocks (g.setBlock img b blk) L = g.dirBlocks img L ∧ ∃ pre post,
      g.links img L = pre++(entriesOf (g.blockAt img b)).map linkOf::post ∧
      g.links (g.setBlock img b blk) L = pre++(entriesOf blk).map linkOf::post := by
  have hinode : g.inodeAt (g.setBlock img b blk) L = g.inodeAt img L :=
    inodeAt_setBlock_ne hg hs (htable b hb)
  have hblocks : g.dirBlocks (g.setBlock img b blk) L = g.dirBlocks img L := by
    rw [Globals.dirBlocks,hinode,Globals.dirBlocks]
  have hself : g.blockAt (g.setBlock img b blk) b = blk := blockAt_setBlock_self hs
  have hlinks : ∀ im : Buf, g.dirBlocks im L = g.dirBlocks img L → g.links im L =
      (g.dirBlocks img L).map fun c => (entriesOf (g.blockAt im c)).map linkOf := by
    intro im him
    rw [Globals.links,Globals.dirEntries,him,List.map_map]
    rfl
  have hother : ∀ c ∈ g.dirBlocks img L, c ≠ b →
      (entriesOf (g.blockAt (g.setBlock img b blk) c)).map linkOf =
        (entriesOf (g.blockAt img c)).map linkOf :=
    fun c _ hc => by rw [blockAt_setBlock_ne hg.sizes hs hc]
  obtain ⟨pre,post,h₁,h₂⟩ := map_split hb hnd hother
  rw [hself] at h₂
  exact ⟨hblocks,pre,post,(hlinks img rfl).trans h₁,(hlinks _ hblocks).trans h₂⟩

theorem Placed.links (hg : Geometry g) {new : DirEntry} {L : ℕ}
    (h : Placed g img new (g.dirBlocks img L) img') (hnd : (g.dirBlocks img L).Nodup)
    (htable : ∀ b ∈ g.dirBlocks img L, b ≠ g.inodeBlock L)
    (hwf : ∀ b ∈ g.dirBlocks img L, WellFormedBlock (g.blockAt img b)) :
    g.dirBlocks img' L = g.dirBlocks img L ∧
      (∀ b ∈ g.dirBlocks img L, WellFormedBlock (g.blockAt img' b)) ∧
      (g.links img' L = g.links img L ∨
        Gains (g.links img L) [(new.inode,dirIsDir new)] (g.links img' L)) := by
  rcases h with rfl | ⟨b,hb,blk,hs,rfl,hgrown⟩
  · exact ⟨rfl,hwf,Or.inl rfl⟩
  · obtain ⟨hblocks,pre,post,h₁,h₂⟩ := setBlock_links hg hs hb hnd htable
    refine ⟨hblocks,fun c hc => ?_,?_⟩
    · by_cases hcb : c = b
      · rw [hcb,blockAt_setBlock_self hs]
        exact hgrown.links.1
      · rw [blockAt_setBlock_ne hg.sizes hs hcb]
        exact hwf c hc
    · rcases hgrown.links.2 with he | he
      · left
        rw [h₁,h₂,he]
      · right
        rw [h₁,h₂,he]
        exact .step .refl

theorem PlacedLast.links (hg : Geometry g) {new : DirEntry} {L : ℕ}
    (h : PlacedLast g img new (g.dirBlocks img L) img') (hnd : (g.dirBlocks img L).Nodup)
    (htable : ∀ b ∈ g.dirBlocks img L, b ≠ g.inodeBlock L) :
    Gains (g.links img L) [(new.inode,dirIsDir new)] (g.links img' L) := by
  obtain ⟨b,hb,blk,hs,rfl,hext⟩ := h
  obtain ⟨_,pre,post,h₁,h₂⟩ := setBlock_links hg hs hb hnd htable
  rw [h₁,h₂,hext.links.2]
  exact .step .refl

end Effects

end MyFsck
