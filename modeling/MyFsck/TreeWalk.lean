import MyFsck.Directory
import MyFsck.Frames

/-! Walks over the directory tree that only add to an array. The two recursive walkers of the program
that fill an array differ in what they add for a block and for an entry, and in which entries they
descend into. -/
namespace MyFsck

open ByteBuffer ErrorState Unfolding

/-- An array that lists of numbers can be added to, in any order; `Ok` is what the walk needs of it. -/
structure Accumulator (act : Buf → List ℕ → Buf) (Ok : Buf → Prop) : Prop where
  nil : ∀ c, act c [] = c
  append : ∀ c l m, act (act c l) m = act c (l++m)
  perm : ∀ c l m, l.Perm m → act c l = act c m
  ok : ∀ c l, Ok c → Ok (act c l)

/-- On the image `img` the step `x` adds `l` to the array; it may stop with an error if `fails`. -/
def Adds (act : Buf → List ℕ → Buf) (Ok : Buf → Prop) (img : Buf) (fails : Prop)
    (x : Buf → Fsck Buf) (l : List ℕ) : Prop :=
  ∀ c d, Ok c → d.image = img → (∃ d', (x c).run d = .ok (act c l) d' ∧ d'.image = img) ∨
    (fails ∧ ∃ e d', (x c).run d = .error e d')

/-- On the image block `b` is read as a directory block. -/
structure ReadsBlock (g : Globals) (img : Buf) (b : ℕ) (blk : Buf) : Prop where
  size_eq : blk.size = g.blockSize
  wellFormed : WellFormedBlock blk
  run : ∀ d : Device, d.image = img → (g.block b).run d = .ok blk d

theorem DirOk.reads {g : Globals} {img : Buf} {x : ℕ} (hx : DirOk g img x) (hg : Geometry g)
    (hf : g.Fits img) : ∀ b ∈ g.dirBlocks img x, ReadsBlock g img b (g.blockAt img b) := by
  intro b hb
  refine ⟨blockAt_size b,hx.wellFormed b hb,fun d hd => ?_⟩
  subst hd
  exact block_run hg.sizes hf (hx.blocks_lt b hb)

/-- The entries of a directory, block by block, as its inode and its blocks give them. -/
def entriesBy (inode : Inode) (blk : ℕ → Buf) : List (List (ℕ × DirEntry)) :=
  (inode.iBlock.takeWhile (· ≠ 0)).map fun b => entriesOf (blk b)

/-- The inode numbers in the entries, and the directories a walk follows from them. -/
def namedIn (es : List (List (ℕ × DirEntry))) : List ℕ := es.flatten.map fun p => p.2.inode

def subdirsIn (es : List (List (ℕ × DirEntry))) : List ℕ :=
  ((nonDotBlocks 0 es).filter dirIsDir).map DirEntry.inode

/-- Directory `y` of the image is read with the entries `es`. -/
def FindsDir (g : Globals) (img : Buf) (y : ℕ) (es : List (List (ℕ × DirEntry))) : Prop :=
  ∃ inode blk, (∀ d : Device, d.image = img → (g.readInode y).run d = .ok inode d) ∧
    es = entriesBy inode blk ∧ ∀ b ∈ inode.iBlock.takeWhile (· ≠ 0), ReadsBlock g img b (blk b)

theorem DirOk.finds {g : Globals} {img : Buf} {x : ℕ} (hx : DirOk g img x) (hg : Geometry g)
    (hf : g.Fits img) : FindsDir g img x (g.dirEntries img x) := by
  refine ⟨g.inodeAt img x,g.blockAt img,fun d hd => ?_,rfl,hx.reads hg hf⟩
  subst hd
  exact readInode_run hg hf hx.num_pos hx.num_le

section Adds

variable {act : Buf → List ℕ → Buf} {Ok : Buf → Prop} {img : Buf} {fails : Prop}

theorem Adds.pure (ha : Accumulator act Ok) : Adds act Ok img fails Pure.pure [] := by
  intro c d _ hd
  exact Or.inl ⟨d,by rw [ha.nil]; rfl,hd⟩

theorem Adds.bind (ha : Accumulator act Ok) {x y : Buf → Fsck Buf} {l m : List ℕ}
    (hx : Adds act Ok img fails x l) (hy : Adds act Ok img fails y m) :
    Adds act Ok img fails (fun c => x c >>= y) (l++m) := by
  intro c d hc hd
  rcases hx c d hc hd with ⟨d₁,h₁,hd₁⟩ | ⟨hfails,e,d₁,h₁⟩
  · rcases hy (act c l) d₁ (ha.ok c l hc) hd₁ with ⟨d₂,h₂,hd₂⟩ | ⟨hfails,e,d₂,h₂⟩
    · exact Or.inl ⟨d₂,by rw [bind_ok h₁,h₂,ha.append],hd₂⟩
    · exact Or.inr ⟨hfails,e,d₂,by rw [bind_ok h₁,h₂]⟩
  · exact Or.inr ⟨hfails,e,d₁,bind_error h₁⟩

theorem Adds.perm (ha : Accumulator act Ok) {x : Buf → Fsck Buf} {l m : List ℕ}
    (hx : Adds act Ok img fails x l) (h : l.Perm m) : Adds act Ok img fails x m := by
  intro c d hc hd
  rw [← ha.perm c l m h]
  exact hx c d hc hd

variable {g : Globals} {kids : ℕ → List ℕ} {descend : DirEntry → Bool} {own : ℕ → List ℕ}
  {contr : DirEntry → List ℕ} {bcontr : ℕ → List ℕ}

/-- What a walk adds that descends into the entries of `K`: `m` is what it meets behind them. -/
def Descends (act : Buf → List ℕ → Buf) (Ok : Buf → Prop) (img : Buf) (fails : Prop)
    (kids : ℕ → List ℕ) (own : ℕ → List ℕ) (K m : List ℕ) (e : DirEntry) (step : Buf → Fsck Buf)
    (contr : List ℕ) : Prop :=
  e.inode ∈ K → ∀ l, Unfolds kids [e.inode] l → l.length ≤ m.length → (∀ y ∈ l, y ∈ m) →
    Adds act Ok img fails step (contr ++ l.flatMap own)

theorem adds_foldEntries (ha : Accumulator act Ok) {i : ℕ}
    {body : ℕ → ℕ → DirEntry → Buf → Fsck Buf} {K m : List ℕ} (es : List (ℕ × DirEntry)) (count : ℕ)
    (l : List ℕ)
    (hstay : ∀ p ∈ es, ∀ count, ¬ ((i ≠ 0 ∨ 2 ≤ count) ∧ descend p.2 = true) →
      Adds act Ok img fails (body count p.1 p.2) (contr p.2))
    (hdesc : ∀ p ∈ es, ∀ count, (i ≠ 0 ∨ 2 ≤ count) → descend p.2 = true →
      Descends act Ok img fails kids own K m p.2 (body count p.1 p.2) (contr p.2))
    (hu : Unfolds kids (((nonDotFrom i count es).filter descend).map DirEntry.inode) l)
    (hK : ∀ k ∈ ((nonDotFrom i count es).filter descend).map DirEntry.inode, k ∈ K)
    (hlen : l.length ≤ m.length) (hmem : ∀ y ∈ l, y ∈ m) :
    Adds act Ok img fails (fun c => foldEntries body count es c)
      (es.flatMap (fun p => contr p.2) ++ l.flatMap own) := by
  induction es generalizing count l with
  | nil =>
    obtain rfl := hu.nil_inv
    exact .pure ha
  | cons p es ih =>
    obtain ⟨o,e⟩ := p
    have hstay' : ∀ p ∈ es, ∀ count, ¬ ((i ≠ 0 ∨ 2 ≤ count) ∧ descend p.2 = true) →
        Adds act Ok img fails (body count p.1 p.2) (contr p.2) := fun p hp => hstay p (by simp [hp])
    have hdesc' : ∀ p ∈ es, ∀ count, (i ≠ 0 ∨ 2 ≤ count) → descend p.2 = true →
        Descends act Ok img fails kids own K m p.2 (body count p.1 p.2) (contr p.2) :=
      fun p hp => hdesc p (by simp [hp])
    by_cases hd : (i ≠ 0 ∨ 2 ≤ count) ∧ descend e = true
    · have hk : ((nonDotFrom i count ((o,e)::es)).filter descend).map DirEntry.inode =
          e.inode :: ((nonDotFrom i (count+1) es).filter descend).map DirEntry.inode := by
        simp only [nonDotFrom,hd.1,if_true,List.filter_cons,hd.2,List.map_cons]
      rw [hk] at hu hK
      obtain ⟨l₁,l₂,rfl,hl₁,hl₂⟩ := hu.uncons
      rw [List.length_append] at hlen
      have h₁ := hdesc (o,e) (by simp) count hd.1 hd.2 (hK _ (by simp)) l₁ hl₁ (by omega)
        fun y hy => hmem y (by simp [hy])
      have h₂ := ih (count+1) l₂ hstay' hdesc' hl₂ (fun k hk => hK k (by simp [hk])) (by omega)
        fun y hy => hmem y (by simp [hy])
      refine (h₁.bind ha h₂).perm ha ?_
      simp only [List.flatMap_cons,List.flatMap_append,List.append_assoc]
      refine List.Perm.append_left _ ?_
      rw [← List.append_assoc,← List.append_assoc]
      exact List.perm_append_comm.append_right _
    · have hk : ((nonDotFrom i count ((o,e)::es)).filter descend).map DirEntry.inode =
          ((nonDotFrom i (count+1) es).filter descend).map DirEntry.inode := by
        rw [nonDotFrom]
        split
        · have hnd : descend e = false := by
            cases h : descend e with
            | false => rfl
            | true => exact absurd ⟨‹_›,h⟩ hd
          simp [hnd]
        · rfl
      rw [hk] at hu hK
      have h₁ := hstay (o,e) (by simp) count hd
      have h₂ := ih (count+1) l hstay' hdesc' hu hK hlen hmem
      refine (h₁.bind ha h₂).perm ha ?_
      simp

theorem adds_foldBlocks (ha : Accumulator act Ok) {blk : ℕ → Buf} {enter : ℕ → Buf → Fsck Buf}
    {body : ℕ → ℕ → ℕ → DirEntry → Buf → Fsck Buf} {K m : List ℕ} (bs : List ℕ) (i : ℕ) (l : List ℕ)
    (hbs : ∀ b ∈ bs, ReadsBlock g img b (blk b))
    (henter : ∀ b ∈ bs, Adds act Ok img fails (enter b) (bcontr b))
    (hstay : ∀ b ∈ bs, ∀ p ∈ entriesOf (blk b), ∀ i count,
      ¬ ((i ≠ 0 ∨ 2 ≤ count) ∧ descend p.2 = true) →
      Adds act Ok img fails (body i count p.1 p.2) (contr p.2))
    (hdesc : ∀ b ∈ bs, ∀ p ∈ entriesOf (blk b), ∀ i count, (i ≠ 0 ∨ 2 ≤ count) →
      descend p.2 = true → Descends act Ok img fails kids own K m p.2 (body i count p.1 p.2) (contr p.2))
    (hu : Unfolds kids (((nonDotBlocks i (bs.map fun b => entriesOf (blk b))).filter
      descend).map DirEntry.inode) l)
    (hK : ∀ k ∈ ((nonDotBlocks i (bs.map fun b => entriesOf (blk b))).filter
      descend).map DirEntry.inode, k ∈ K)
    (hlen : l.length ≤ m.length) (hmem : ∀ y ∈ l, y ∈ m) :
    Adds act Ok img fails (fun c => foldBlocks (fun i b c => do
        let c ← enter b c
        let dir_block ← g.block b
        scanEntries g.blockSize (fun _ => dir_block) (body i) g.blockSize 0 0 c) i bs c)
      (bs.flatMap (fun b => bcontr b ++ (entriesOf (blk b)).flatMap fun p => contr p.2) ++
        l.flatMap own) := by
  induction bs generalizing i l with
  | nil =>
    obtain rfl := hu.nil_inv
    exact .pure ha
  | cons b bs ih =>
    simp only [List.map_cons,nonDotBlocks,List.filter_append,List.map_append] at hu hK
    obtain ⟨l₁,l₂,rfl,hl₁,hl₂⟩ := hu.append_inv
    rw [List.length_append] at hlen
    have hb := hbs b (by simp)
    have h₁ := adds_foldEntries ha (entriesOf (blk b)) 0 l₁ (hstay b (by simp) · · i)
      (hdesc b (by simp) · · i) hl₁ (fun k hk => hK k (by simp [hk])) (by omega)
      fun y hy => hmem y (by simp [hy])
    have hscan : Adds act Ok img fails (fun c => do
        let dir_block ← g.block b
        scanEntries g.blockSize (fun _ => dir_block) (body i) g.blockSize 0 0 c)
        ((entriesOf (blk b)).flatMap (fun p => contr p.2) ++ l₁.flatMap own) := by
      intro c d hc hd
      have h := h₁ c d hc hd
      subst hd
      have hconst := scanEntries_const (body i) hb.wellFormed 0 c d
      rw [hb.size_eq] at hconst
      dsimp only
      rw [bind_ok (hb.run d rfl),hconst]
      exact h
    have h₂ := ih (i+1) l₂ (fun b hb => hbs b (by simp [hb])) (fun b hb => henter b (by simp [hb]))
      (fun b hb => hstay b (by simp [hb])) (fun b hb => hdesc b (by simp [hb])) hl₂
      (fun k hk => hK k (by simp [hk])) (by omega) fun y hy => hmem y (by simp [hy])
    refine (((henter b (by simp)).bind ha hscan).bind ha h₂).perm ha ?_
    simp only [List.flatMap_cons,List.flatMap_append,List.append_assoc]
    refine (List.Perm.append_left _ (List.Perm.append_left _ ?_))
    rw [← List.append_assoc,← List.append_assoc]
    exact List.perm_append_comm.append_right _

theorem adds_directory (ha : Accumulator act Ok) {inode : Inode} {blk : ℕ → Buf}
    (hx : ∀ b ∈ inode.iBlock.takeWhile (· ≠ 0), ReadsBlock g img b (blk b)) (kids : ℕ → List ℕ)
    (descend : DirEntry → Bool) (own : ℕ → List ℕ) (contr : DirEntry → List ℕ) (bcontr : ℕ → List ℕ)
    (enter : ℕ → Buf → Fsck Buf) (body : ℕ → ℕ → ℕ → DirEntry → Buf → Fsck Buf) {l : List ℕ}
    (henter : ∀ b ∈ inode.iBlock.takeWhile (· ≠ 0), Adds act Ok img fails (enter b) (bcontr b))
    (hstay : ∀ e : DirEntry, e.inode ∈ namedIn (entriesBy inode blk) →
      ∀ i count off, ¬ ((i ≠ 0 ∨ 2 ≤ count) ∧ descend e = true) →
        Adds act Ok img fails (body i count off e) (contr e))
    (hdesc : ∀ e : DirEntry, e.inode ∈ namedIn (entriesBy inode blk) →
      ∀ i count off, (i ≠ 0 ∨ 2 ≤ count) → descend e = true → Descends act Ok img fails kids own
        (((nonDotBlocks 0 (entriesBy inode blk)).filter descend).map DirEntry.inode) l e
          (body i count off e) (contr e))
    (hu : Unfolds kids (((nonDotBlocks 0 (entriesBy inode blk)).filter descend).map DirEntry.inode) l) :
    Adds act Ok img fails (fun c => forBlocks (fun i b c => do
        let c ← enter b c
        let dir_block ← g.block b
        scanEntries g.blockSize (fun _ => dir_block) (body i) g.blockSize 0 0 c) 0 inode.iBlock c)
      ((inode.iBlock.takeWhile (· ≠ 0)).flatMap bcontr ++
        (entriesBy inode blk).flatten.flatMap (fun p => contr p.2) ++ l.flatMap own) := by
  have hnamed : ∀ b ∈ inode.iBlock.takeWhile (· ≠ 0), ∀ p ∈ entriesOf (blk b),
      p.2.inode ∈ namedIn (entriesBy inode blk) := fun b hb p hp =>
    List.mem_map.mpr ⟨p,List.mem_flatten.mpr ⟨_,List.mem_map.mpr ⟨b,hb,rfl⟩,hp⟩,rfl⟩
  have h := adds_foldBlocks ha (inode.iBlock.takeWhile (· ≠ 0)) 0 l hx henter
    (fun b hb p hp i count => hstay p.2 (hnamed b hb p hp) i count p.1)
    (fun b hb p hp i count => hdesc p.2 (hnamed b hb p hp) i count p.1) hu (fun k hk => hk) le_rfl
    fun y hy => hy
  have hperm : ((inode.iBlock.takeWhile (· ≠ 0)).flatMap fun b =>
      bcontr b ++ (entriesOf (blk b)).flatMap fun p => contr p.2).Perm
      ((inode.iBlock.takeWhile (· ≠ 0)).flatMap bcontr ++
        (entriesBy inode blk).flatten.flatMap fun p => contr p.2) := by
    have he : (entriesBy inode blk).flatten.flatMap (fun p => contr p.2) =
        (inode.iBlock.takeWhile (· ≠ 0)).flatMap fun b =>
          (entriesOf (blk b)).flatMap fun p => contr p.2 := by
      rw [entriesBy,← List.flatMap_def,List.flatMap_assoc]
    rw [he]
    exact (List.flatMap_append_perm _ _ _).symm
  intro c d hc hd
  dsimp only
  rw [forBlocks_eq]
  exact h.perm ha (hperm.append_right _) c d hc hd

end Adds

end MyFsck
