import MyFsck.Tour
import MyFsck.Pass1
import MyFsck.LostFound

/-! `pass1` as a walk of a graph that changes the image as it goes: it overwrites the inode numbers
of the first two entries of the blocks it goes through, and follows the entries behind these. -/
namespace MyFsck

open ByteBuffer ErrorState Unfolding Tour

/-- The entries among the first two that are of type directory. -/
def dots (es : List (ℕ × DirEntry)) : List (ℕ × DirEntry) := (es.take 2).filter fun q => dirIsDir q.2

/-- An entry without its inode number. -/
def withoutInode (q : ℕ × DirEntry) : ℕ × DirEntry := (q.1,{ q.2 with inode := 0 })

/-- Two lists of entries that differ in the inode numbers of the first two at most. -/
structure SameButDots (es es' : List (ℕ × DirEntry)) : Prop where
  front : (es'.take 2).map withoutInode = (es.take 2).map withoutInode
  behind : es'.drop 2 = es.drop 2

theorem SameButDots.refl (es : List (ℕ × DirEntry)) : SameButDots es es := ⟨rfl,rfl⟩

theorem SameButDots.trans {es es' es'' : List (ℕ × DirEntry)} (h : SameButDots es es')
    (h' : SameButDots es' es'') : SameButDots es es'' :=
  ⟨h'.front.trans h.front,h'.behind.trans h.behind⟩

theorem sameButDots_set {pre rest : List (ℕ × DirEntry)} {o v : ℕ} {e : DirEntry}
    (h : pre.length < 2) :
    SameButDots (pre ++ (o,e)::rest) (pre ++ (o,{ e with inode := v })::rest) := by
  match pre,h with
  | [],_ => exact ⟨by cases rest <;> simp [withoutInode],by simp⟩
  | [p],_ => exact ⟨by simp [withoutInode],by simp⟩

theorem SameButDots.dots_mem {es es' : List (ℕ × DirEntry)} (h : SameButDots es es')
    {q : ℕ × DirEntry} (hq : q ∈ dots es') : ∃ q₀ ∈ dots es, q₀.1 = q.1 := by
  obtain ⟨hq₁,hq₂⟩ := List.mem_filter.mp hq
  have hw : withoutInode q ∈ (es.take 2).map withoutInode := by
    rw [← h.front]
    exact List.mem_map_of_mem hq₁
  obtain ⟨q₀,hq₀,he⟩ := List.mem_map.mp hw
  simp only [withoutInode,Prod.mk.injEq,DirEntry.mk.injEq] at he
  refine ⟨q₀,List.mem_filter.mpr ⟨hq₀,?_⟩,he.1⟩
  simp only [dirIsDir] at hq₂ ⊢
  rw [he.2.2.2.2.1]
  exact hq₂

/-- The entries `pass1` follows. -/
def follows (count : ℕ) (e : DirEntry) : Bool := decide (2 ≤ count) && dirIsDir e

theorem picked_follows (count : ℕ) (es : List (ℕ × DirEntry)) :
    picked follows count es = (((es.drop (2-count)).map Prod.snd).filter dirIsDir).map
      DirEntry.inode := by
  have h : ∀ count e, follows count e = (decide ((0:ℕ) ≠ 0 ∨ 2 ≤ count) && dirIsDir e) := by
    simp [follows]
  rw [picked_nonDot h,nonDotFrom_drop]

theorem SameButDots.picked {es es' : List (ℕ × DirEntry)} (h : SameButDots es es') :
    picked follows 0 es' = picked follows 0 es := by
  rw [picked_follows,picked_follows,h.behind]

/-- The directories `pass1` follows the entries of a directory to: in every block it leaves the
first two entries out. -/
def Globals.pass1Kids (g : Globals) (img : Buf) (x : ℕ) : List ℕ :=
  gathered (fun _ b => picked follows 0 (entriesOf (g.blockAt img b))) 0 (g.dirBlocks img x)

/-- The subdirectories an entry of block number `i` leads to. -/
def Globals.subdirsOf (g : Globals) (img : Buf) (i b : ℕ) : List ℕ :=
  picked (fun count e => decide (i ≠ 0 ∨ 2 ≤ count) && dirIsDir e) 0 (entriesOf (g.blockAt img b))

theorem subdirs_gathered (g : Globals) (img : Buf) (x : ℕ) :
    g.subdirs img x = gathered (g.subdirsOf img) 0 (g.dirBlocks img x) := by
  have hown : ∀ i b, g.subdirsOf img i b =
      ((nonDotFrom i 0 (entriesOf (g.blockAt img b))).filter dirIsDir).map DirEntry.inode :=
    fun i b => picked_nonDot (fun _ _ => rfl) 0 _
  rw [gathered_nonDot hown,Globals.subdirs,Globals.nonDot,Globals.dirEntries]

theorem follows_subdirsOf (g : Globals) (img : Buf) (i b : ℕ) :
    (picked follows 0 (entriesOf (g.blockAt img b))).Sublist (g.subdirsOf img i b) :=
  picked_sublist (by simp +contextual [follows]) 0 _

theorem pass1Kids_sublist (g : Globals) (img : Buf) (x : ℕ) :
    (g.pass1Kids img x).Sublist (g.subdirs img x) := by
  rw [subdirs_gathered]
  exact gathered_sublist (follows_subdirsOf g img) 0 _

theorem pass1Kids_subdirs {g : Globals} {img : Buf} {x k : ℕ} (h : k ∈ g.pass1Kids img x) :
    k ∈ g.subdirs img x := (pass1Kids_sublist g img x).subset h

/-- `new` is `old` but for the inode numbers in the first two entries of the blocks of directories
in `X`, where these entries are of type directory. -/
structure DotsChanged (g : Globals) (X : ℕ → Prop) (old new : Buf) : Prop where
  size : new.size = old.size
  bytes : ∀ k, new.byte k ≠ old.byte k → ∃ x, X x ∧ ∃ b ∈ g.dirBlocks old x,
    ∃ q ∈ dots (entriesOf (g.blockAt old b)),
      g.blockOffset b+q.1 ≤ k ∧ k < g.blockOffset b+q.1+4
  blocks : ∀ x, X x → ∀ b ∈ g.dirBlocks old x, WellFormedBlock (g.blockAt new b) ∧
    SameButDots (entriesOf (g.blockAt old b)) (entriesOf (g.blockAt new b))
  inodes : ∀ y, 1 ≤ y → y ≤ g.superBlock.sInodesCount → g.inodeAt new y = g.inodeAt old y

/-- No block of the directory belongs to an inode table. -/
def OffTable (g : Globals) (img : Buf) (x : ℕ) : Prop :=
  ∀ b ∈ g.dirBlocks img x, ∀ y, 1 ≤ y → y ≤ g.superBlock.sInodesCount → b ≠ g.inodeBlock y

theorem offTable_of_check {g : Globals} {img : Buf} {x : ℕ} (h : ∀ b ∈ g.dirBlocks img x,
    ∀ y ∈ List.range' 1 g.superBlock.sInodesCount, b ≠ g.inodeBlock y) : OffTable g img x :=
  fun b hb y h1 hy => h b hb y (by rw [List.mem_range'_1]; omega)

section Changed

variable {g : Globals} {X : ℕ → Prop} {old new : Buf}

theorem DotsChanged.refl (h : ∀ x, X x → DirOk g old x) : DotsChanged g X old old where
  size := rfl
  bytes _ hk := absurd rfl hk
  blocks x hx b hb := ⟨(h x hx).wellFormed b hb,.refl _⟩
  inodes _ _ _ := rfl

theorem DotsChanged.fits (h : DotsChanged g X old new) (hf : g.Fits old) : g.Fits new := by
  unfold Globals.Fits
  rw [h.size]
  exact hf

theorem DotsChanged.write (hg : Geometry g) (hf : g.Fits old) (hX : ∀ x, X x → DirOk g old x ∧ OffTable g old x)
    (h : DotsChanged g X old new) {x b : ℕ} (hx : X x) (hb : b ∈ g.dirBlocks old x)
    {pre rest : List (ℕ × DirEntry)} {o v : ℕ} {e : DirEntry}
    (he : entriesOf (g.blockAt new b) = pre ++ (o,e)::rest) (hpre : pre.length < 2)
    (hd : dirIsDir e = true) (hv : 0 < v) (hv' : v < 2^32) :
    DotsChanged g X old (g.setBlock new b ((g.blockAt new b).putNum o v 4)) ∧
      entriesOf ((g.blockAt new b).putNum o v 4) = pre ++ (o,{ e with inode := v })::rest := by
  obtain ⟨hok,hoff⟩ := hX x hx
  obtain ⟨hwf,hsame⟩ := h.blocks x hx b hb
  have hchain : Chain (g.blockAt new b) 0 (pre ++ (o,e)::rest) := by
    rw [← he]
    exact hwf
  have hset := (hchain.setInode hv hv').wellFormed
  have hsize : ((g.blockAt new b).putNum o v 4).size = g.blockSize := by simp
  have hlt := hok.blocks_lt b hb
  have hfit := h.fits hf
  have hin := hchain.entry_in (o,e) (by simp)
  have hdot : (o,e) ∈ dots (entriesOf (g.blockAt new b)) := by
    rw [he]
    refine List.mem_filter.mpr ⟨?_,hd⟩
    match pre,hpre with
    | [],_ => simp
    | [p],_ => simp
  refine ⟨⟨?_,fun k hk => ?_,fun y hy c hc => ?_,fun y h1 hy => ?_⟩,hset.1⟩
  · rw [setBlock_size hg.sizes hfit hlt hsize,h.size]
  · by_cases hfield : g.blockOffset b+o ≤ k ∧ k < g.blockOffset b+o+4
    · obtain ⟨q,hq,hqo⟩ := hsame.dots_mem hdot
      exact ⟨x,hx,b,hb,q,hq,by rw [hqo]; exact hfield⟩
    · refine h.bytes k ?_
      rwa [setBlock_byte_eq hsize fun j hj hkj => Buf.putNum_byte_out (by omega)] at hk
  · by_cases hcb : c = b
    · subst hcb
      rw [blockAt_setBlock_self hsize]
      refine ⟨hset.2,(h.blocks y hy c hc).2.trans ?_⟩
      rw [hset.1,he]
      exact sameButDots_set hpre
    · rw [blockAt_setBlock_ne hg.sizes hsize hcb]
      exact h.blocks y hy c hc
  · rw [inodeAt_setBlock_ne hg hsize (hoff b hb y h1 hy),h.inodes y h1 hy]

end Changed

section Walk

variable {g : Globals} {X : ℕ → Prop} {old : Buf} {w : Tour} {note : ℕ → Fsck Unit}
  {visit : ℕ → ℕ → Fsck Unit} {p x b : ℕ}

/-- The number of an inode that is used: neither 0 nor above a `__u32`. -/
def Numbers (x : ℕ) : Prop := 0 < x ∧ x < 2^32

/-- In front of the entries `es` of block `b`, the first of which stands at `count`: as long as an
entry may be overwritten, the array scanned is the block on the disk. -/
structure InBlock (g : Globals) (X : ℕ → Prop) (old : Buf) (b count : ℕ) (es : List (ℕ × DirEntry))
    (s : Buf) (d : Device) : Prop where
  changed : DotsChanged g X old d.image
  size : s.size = g.blockSize
  onDisk : count < 2 → g.blockAt d.image b = s ∧
    ∃ pre : List (ℕ × DirEntry), entriesOf s = pre ++ es ∧ pre.length = count

theorem InBlock.next {count o : ℕ} {e : DirEntry} {rest : List (ℕ × DirEntry)} {s : Buf} {d : Device}
    (h : InBlock g X old b count ((o,e)::rest) s d) : InBlock g X old b (count+1) rest s d where
  changed := h.changed
  size := h.size
  onDisk hc := by
    obtain ⟨hdisk,pre,he,hlen⟩ := h.onDisk (by omega)
    exact ⟨hdisk,pre ++ [(o,e)],by simp [he],by simp [hlen]⟩

theorem correct_walked (hg : Geometry g) (hf : g.Fits old)
    (hX : ∀ x, X x → DirOk g old x ∧ OffTable g old x) (hx : X x) (hb : b ∈ g.dirBlocks old x)
    {count o v : ℕ} {e : DirEntry} {rest : List (ℕ × DirEntry)} {ev : Event} (hc : count < 2)
    (hd : dirIsDir e = true) (hv : Numbers v) (hev : expanded [ev] = []) :
    w.Walked (InBlock g X old b count ((o,e)::rest)) []
      (fun s => print ev >>= fun _ => pass1Corrector g s b o v) (InBlock g X old b (count+1) rest) := by
  refine .step fun s d h => ?_
  obtain ⟨hdisk,pre,he,hlen⟩ := h.onDisk hc
  have hblk : entriesOf (g.blockAt d.image b) = pre ++ (o,e)::rest := by rw [hdisk,he]
  obtain ⟨hw,hes⟩ := h.changed.write hg hf hX hx hb hblk (by omega) hd hv.1 hv.2
  have hin := (h.changed.blocks x hx b hb).1.entry_in (o,e) (by rw [hblk]; simp)
  rw [hdisk] at hw hes hin
  have hsize : (s.putNum o v 4).size = g.blockSize := by rw [Buf.putNum_size,h.size]
  have hwrite := write_whole_run hg (d := ⟨d.image,d.out ++ [ev]⟩) ((hX x hx).1.blocks_lt b hb) hsize
  refine ⟨s.putNum o v 4,⟨g.setBlock d.image b (s.putNum o v 4),d.out ++ [ev] ++ writeEvents g b⟩,
    ?_,⟨hw,hsize,fun hc' => ⟨blockAt_setBlock_self hsize,pre ++ [(o,{ e with inode := v })],?_,?_⟩⟩,?_⟩
  · rw [bind_ok (print_run ev d),pass1Corrector,writeNumberIntoBlock_eq (by omega),
      bind_ok (inBounds_some _ _),bind_ok hwrite]
    rfl
  · rw [hes]
    simp
  · simp [hlen]
  · rw [expanded_append,expanded_append,hev,expanded_writeEvents,List.append_nil,List.append_nil]

theorem pass1Entry_walked (hg : Geometry g) (hf : g.Fits old)
    (hX : ∀ x, X x → DirOk g old x ∧ OffTable g old x) (hx : X x) (hb : b ∈ g.dirBlocks old x)
    (hp : Numbers p) (hxn : Numbers x) {count o : ℕ} {e : DirEntry} {rest : List (ℕ × DirEntry)}
    (hv : follows count e = true → w.Walked (fun (_ : Unit) d => DotsChanged g X old d.image) [e.inode]
      (fun _ => visit x e.inode) fun _ d => DotsChanged g X old d.image) :
    w.Walked (InBlock g X old b count ((o,e)::rest)) (if follows count e then [e.inode] else [])
      (pass1Entry g visit b p x count o e) (InBlock g X old b (count+1) rest) := by
  have hsame : w.Walked (InBlock g X old b count ((o,e)::rest)) [] (fun s : Buf => pure s)
      (InBlock g X old b (count+1) rest) := .pure fun _ _ h => h.next
  unfold pass1Entry
  by_cases hd : dirIsDir e = true
  · by_cases hc : 2 ≤ count
    · have hfol : follows count e = true := by simp [follows,hc,hd]
      have hframe := Walked.frame (F := fun s : Buf => s.size = g.blockSize) (hv hfol)
      have hlast : ∀ n es (s : Buf) d, 2 ≤ n → s.size = g.blockSize ∧ DotsChanged g X old d.image →
          InBlock g X old b n es s d := fun n es s d hn h => ⟨h.2,h.1,fun hn' => by omega⟩
      simp only [hd,if_true,show ¬ count = 0 by omega,show ¬ count = 1 by omega,if_false,hfol]
      exact hframe.weaken (fun s d h => ⟨h.size,h.changed⟩) fun s d h => hlast _ _ s d (by omega) h
    · have hfol : follows count e = false := by simp [follows,hc]
      simp only [hd,if_true,hfol,Bool.false_eq_true,if_false]
      by_cases h₀ : count = 0
      · by_cases he : e.inode ≠ x
        · simp only [if_pos h₀,if_pos he]
          exact correct_walked hg hf hX hx hb (by omega) hd hxn rfl
        · simpa only [if_pos h₀,if_neg he] using hsame
      · by_cases he : e.inode ≠ p
        · simp only [if_neg h₀,if_pos (show count = 1 by omega),if_pos he]
          exact correct_walked hg hf hX hx hb (by omega) hd hp rfl
        · simpa only [if_neg h₀,if_pos (show count = 1 by omega),if_neg he] using hsame
  · have hfol : follows count e = false := by simp [follows,hd]
    simpa [hd,hfol] using hsame

theorem pass1Entry_result {count o : ℕ} {e : DirEntry} {s s' : Buf} {d d' : Device}
    (h : (pass1Entry g visit b p x count o e s).run d = .ok s' d') :
    s' = s ∨ ∃ v, s' = s.putNum o v 4 := by
  have hfix : ∀ {ev v}, (do print ev; pass1Corrector g s b o v : Fsck Buf).run d = .ok s' d' →
      s' = s ∨ ∃ v, s' = s.putNum o v 4 := by
    intro ev v h
    obtain ⟨_,d₁,_,h⟩ := bind_ok_inv h
    unfold pass1Corrector writeNumberIntoBlock at h
    split at h
    · rw [bind_ok (inBounds_some _ d₁)] at h
      obtain ⟨_,d₂,_,h⟩ := bind_ok_inv h
      cases h
      exact Or.inr ⟨v,rfl⟩
    · rw [bind_error (inBounds_none d₁)] at h
      cases h
  have hsame : ∀ {d₁ : Device}, (pure s : Fsck Buf).run d₁ = .ok s' d' →
      s' = s ∨ ∃ v, s' = s.putNum o v 4 := by
    intro d₁ h
    cases h
    exact Or.inl rfl
  unfold pass1Entry at h
  split at h
  · split at h
    · split at h
      · exact hfix h
      · exact hsame h
    · split at h
      · split at h
        · exact hfix h
        · exact hsame h
      · obtain ⟨_,d₁,_,h⟩ := bind_ok_inv h
        exact hsame h
  · exact hsame h

theorem pass1Block_fold {d : Device} {blk : Buf} (hread : (g.block b).run d = .ok blk d)
    (hsize : blk.size = g.blockSize) (hwf : WellFormedBlock blk) (i : ℕ) (u : Unit) :
    (pass1Block g visit p x i b u).run d = (do
      let _ ← foldEntries (pass1Entry g visit b p x) 0 (entriesOf blk) blk
      pure ()).run d := by
  have hscan := @scanEntries_run _ id (pass1Entry g visit b p x) _ _ _ hwf (by
    intro q hq count s d s' d' hs hr
    have hq' := (hwf.entry_in q hq).2.2
    rcases pass1Entry_result hr with rfl | ⟨v,rfl⟩
    · exact hs.mono (by omega)
    · exact ⟨(Buf.putNum_size _ _ _ _).trans hs.1,fun i hi =>
        (Buf.putNum_byte_out (by omega)).trans (hs.2 i (by omega))⟩) g.blockSize 0
    blk d ⟨rfl,fun _ _ => rfl⟩ (by omega)
  rw [hsize] at hscan
  unfold pass1Block
  rw [bind_ok hread]
  exact bind_congr_run hscan

theorem pass1Block_walked (hg : Geometry g) (hf : g.Fits old)
    (hX : ∀ x, X x → DirOk g old x ∧ OffTable g old x) (hx : X x) {i : ℕ} (hb : b ∈ g.dirBlocks old x)
    (hp : Numbers p) (hxn : Numbers x) (hk : ∀ p x, KeepsLog (visit p x))
    (hv : ∀ k ∈ picked follows 0 (entriesOf (g.blockAt old b)),
      w.Walked (fun (_ : Unit) d => DotsChanged g X old d.image) [k] (fun _ => visit x k)
        fun _ d => DotsChanged g X old d.image) :
    w.Walked (fun (_ : Unit) d => DotsChanged g X old d.image)
      (picked follows 0 (entriesOf (g.blockAt old b))) (pass1Block g visit p x i b)
      fun _ d => DotsChanged g X old d.image := by
  intro u d h
  obtain ⟨hwf,hsame⟩ := h.blocks x hx b hb
  rw [← hsame.picked] at hv ⊢
  have hentries := @Walked.entries w _ follows (pass1Entry g visit b p x) (InBlock g X old b)
    (pass1Entry_keepsLog hk b) (entriesOf (g.blockAt d.image b)) 0 fun n o e rest he hpick =>
      pass1Entry_walked hg hf hX hx hb hp hxn fun hfol => hv _ (hpick hfol)
  have hread := block_run hg.sizes (d := d) (h.fits hf) ((hX x hx).1.blocks_lt b hb)
  have hrun := @pass1Block_fold g visit p x b d _ hread (blockAt_size b) hwf i u
  rw [endState_congr hrun,hrun]
  have hfold := hentries.bind (f := fun _ => (pure () : Fsck Unit))
    (Walked.pure (Q := fun (_ : Unit) d => DotsChanged g X old d.image) fun _ _ h => h.changed)
    fun _ => .of_readOnly (.pure _)
  rw [List.append_nil] at hfold
  exact hfold _ d ⟨h,rfl,fun _ => ⟨rfl,[],rfl,rfl⟩⟩

theorem pass1Call_walked (hg : Geometry g) (hf : g.Fits old)
    (hX : ∀ x, X x → DirOk g old x ∧ OffTable g old x) (hx : X x) (hp : Numbers p) (hxn : Numbers x)
    (hkids : w.kids x = g.pass1Kids old x) (hn : w.Notes note x) (hk : ∀ p x, KeepsLog (visit p x))
    (hv : ∀ k ∈ g.pass1Kids old x, w.Walked (fun (_ : Unit) d => DotsChanged g X old d.image) [k]
      (fun _ => visit x k) fun _ d => DotsChanged g X old d.image) :
    w.Walked (fun (_ : Unit) d => DotsChanged g X old d.image) [x]
      (fun _ => pass1Call g note visit p x) fun _ d => DotsChanged g X old d.image := by
  have hblocks : w.Walked (fun (_ : Unit) d => DotsChanged g X old d.image) (w.kids x)
      (foldBlocks (pass1Block g visit p x) 0 (g.dirBlocks old x))
      fun _ d => DotsChanged g X old d.image := by
    rw [hkids]
    exact Walked.blocks (pass1Block_keepsLog hk) _ _ fun i b hb hown =>
      pass1Block_walked hg hf hX hx hb hp hxn hk fun k hk' => hv k (hown k hk')
  refine (Walked.node hn (fun _ d d' h hd => hd ▸ h) hblocks).congr fun u d h => ?_
  have hok := (hX x hx).1
  have hread := readInode_run hg (h.fits hf) hok.num_pos hok.num_le
  unfold pass1Call
  rw [bind_ok hread,h.inodes x hok.num_pos hok.num_le,notInodeIsDir_false,forBlocks_dir]
  rfl

theorem Geometry.numbers (hg : Geometry g) (h1 : 1 ≤ x) (hx : x ≤ g.superBlock.sInodesCount) :
    Numbers x := ⟨h1,hx.trans_lt hg.inodesCount_lt⟩

theorem pass1Call_keepsLog (hn : KeepsLog (note x)) (hk : ∀ p x, KeepsLog (visit p x)) :
    KeepsLog (pass1Call g note visit p x) := by
  refine (KeepsLog.of_readOnly (readInode_readOnly g x)).bind fun inode => ?_
  split
  · exact .of_readOnly (.pure _)
  · exact hn.bind fun _ => forBlocks_keepsLog (pass1Block_keepsLog hk) _ _ _

theorem pass1Noted_keepsLog (hn : ∀ x, KeepsLog (note x)) (fuel p x : ℕ) :
    KeepsLog (pass1Noted g note fuel p x) := by
  induction fuel generalizing p x with
  | zero => exact .of_readOnly (.throw _)
  | succ fuel ih => exact pass1Call_keepsLog (hn x) ih

theorem pass1Noted_walked (hg : Geometry g) (hf : g.Fits old) (hnk : ∀ x, KeepsLog (note x))
    (hX : ∀ x, X x → DirOk g old x ∧ OffTable g old x) {Y : ℕ → Prop} (hY : ∀ y, Y y →
      (X y ∧ w.Notes note y ∧ w.kids y = g.pass1Kids old y ∧ ∀ k ∈ g.pass1Kids old y, Y k) ∨
      (note = written ∧ ¬ w.fine y ∧ 1 ≤ y ∧ y ≤ g.superBlock.sInodesCount)) (fuel : ℕ) {p x : ℕ}
    (hp : Numbers p) (hx : Y x) (hfuel : w.Enough fuel x) :
    w.Walked (fun (_ : Unit) d => DotsChanged g X old d.image) [x]
      (fun _ => pass1Noted g note fuel p x) fun _ d => DotsChanged g X old d.image := by
  induction fuel generalizing p x with
  | zero => exact .stop hfuel.zero
  | succ fuel ih =>
    have hlog := pass1Noted_keepsLog (g := g) hnk fuel
    rcases hY x hx with ⟨hXx,hn,hkids,hsub⟩ | ⟨rfl,hno,h1,hle⟩
    · have hok := (hX x hXx).1
      have hxn := hg.numbers hok.num_pos hok.num_le
      exact pass1Call_walked hg hf hX hXx hp hxn hkids hn hlog fun k hk =>
        ih hxn (hsub k hk) (hfuel.kid (hkids ▸ hk))
    · refine (Walked.stray hno fun _ => forBlocks_keepsLog (pass1Block_keepsLog (g := g) (p := p) (x := x)
        hlog) 0 (g.inodeAt old x).iBlock ()).congr fun u d h => ?_
      have hread := readInode_run hg (h.fits hf) h1 hle
      rw [pass1Noted,pass1Call,bind_ok hread,h.inodes x h1 hle,notInodeIsDir_false]
      rfl

end Walk

end MyFsck
