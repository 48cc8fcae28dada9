import MyFsck.Settled
import MyFsck.PassOrder

/-! `pass1` a second time. Each of its writes puts right one of the first two entries of a block, and
changes nothing that it reads elsewhere; so the places that are right grow to all of them. -/
namespace MyFsck

open ByteBuffer ErrorState Unfolding Tour

section Written

variable {g : Globals} {img s blk : Buf} {b c x : ℕ}

theorem blockIn_eq (hdvd : sectorSizeBytes ∣ g.blockSize) : g.blockIn img b = some blk ↔
    g.areaOffset b+g.blockSize ≤ img.size ∧ img.slice (g.areaOffset b) g.blockSize = blk := by
  unfold Globals.blockIn
  by_cases hin : g.areaOffset b+g.blockSize ≤ img.size
  · rw [valueIn_ok (block_area_run hdvd (d := ⟨img,[]⟩) hin),Option.some.injEq]
    exact ⟨fun h => ⟨hin,h⟩,fun h => h.2⟩
  · unfold valueIn
    rw [block_area_stops hdvd (d := ⟨img,[]⟩) hin]
    simp [hin]

theorem write_differ (hdvd : sectorSizeBytes ∣ g.blockSize) (hin : g.areaOffset c+g.blockSize ≤ img.size)
    (hs : s.size = g.blockSize) :
    Differ (g.InArea c) ⟨img,[]⟩ ⟨img.patch (g.areaOffset c) s,[]⟩ := by
  refine Buf.AgreeOff.patch_self (by rw [hs]; exact hin) fun j hj hno => absurd ?_ hno
  unfold Globals.InArea
  rw [Nat.mul_div_cancel' hdvd]
  omega

theorem blockIn_patch_self (hdvd : sectorSizeBytes ∣ g.blockSize)
    (hin : g.areaOffset c+g.blockSize ≤ img.size) (hs : s.size = g.blockSize) :
    g.blockIn (img.patch (g.areaOffset c) s) c = some s := by
  rw [blockIn_eq hdvd,Buf.patch_size_of_le (by omega)]
  exact ⟨hin,Buf.slice_patch_self hs⟩

theorem blockIn_patch_apart (hdvd : sectorSizeBytes ∣ g.blockSize)
    (hin : g.areaOffset c+g.blockSize ≤ img.size) (hs : s.size = g.blockSize) (h : g.Apart b c) :
    g.blockIn (img.patch (g.areaOffset c) s) b = g.blockIn img b :=
  ((block_same (fun _ _ hd => hd) h).valueIn_eq (write_differ hdvd hin hs)).symm

theorem inodeIn_patch_apart (hdvd : sectorSizeBytes ∣ g.blockSize)
    (hin : g.areaOffset c+g.blockSize ≤ img.size) (hs : s.size = g.blockSize)
    (h : ∀ t, g.TableBlock x t → g.Apart t c) :
    g.inodeIn (img.patch (g.areaOffset c) s) x = g.inodeIn img x :=
  ((readInode_same (fun _ _ hd => hd) h).valueIn_eq (write_differ hdvd hin hs)).symm

end Written

/-- The directories `pass1` follows the entries of a directory to. -/
def Globals.pass1KidsIn (g : Globals) (img : Buf) (x : ℕ) : List ℕ :=
  (g.dirBlocksIn img x).flatMap fun b => picked follows 0 (g.blockEntriesIn img b)

/-- `pass1` comes to directory `x` from the root. -/
def Globals.Descended (g : Globals) (img : Buf) : ℕ → Prop := Reach (g.pass1KidsIn img) rootInodeNum

/-- The directories `pass1` comes to are a finite tree, they can be read, their blocks are well formed,
and no two of these blocks, nor one of them and a block of the inode tables the directories stand in,
have a byte in common. -/
structure DirTreeIn (g : Globals) (img : Buf) : Prop where
  finite : {x | g.Descended img x}.Finite
  tree : OneParent (g.pass1KidsIn img) rootInodeNum
  inode : ∀ x, g.Descended img x → ∃ inode, g.inodeIn img x = some inode
  blocks : ∀ x, g.Descended img x → ∀ b ∈ g.dirBlocksIn img x,
    ∃ blk, g.blockIn img b = some blk ∧ WellFormedBlock blk
  apart : ∀ x y, g.Descended img x → g.Descended img y → ∀ b ∈ g.dirBlocksIn img x,
    ∀ c ∈ g.dirBlocksIn img y, x ≠ y ∨ b ≠ c → g.Apart b c
  tables : ∀ x y, g.Descended img x → g.Descended img y → ∀ b ∈ g.dirBlocksIn img x,
    ∀ t, g.TableBlock y t → g.Apart t b

/-- The place of an entry in a block of a directory. -/
structure Spot where
  dir : ℕ
  block : ℕ
  place : ℕ

/-- The image `new` comes from `img` by writes of `pass1`, in which `par` says who the parent of a
directory is; the entries in the places of `D` are right. -/
structure Mended (g : Globals) (img : Buf) (par : ℕ → ℕ) (D : Set Spot) (new : Buf) : Prop where
  inodes : ∀ x, g.Descended img x → g.inodeIn new x = g.inodeIn img x
  blocks : ∀ x, g.Descended img x → ∀ b ∈ g.dirBlocksIn img x, ∃ blk, g.blockIn new b = some blk ∧
    WellFormedBlock blk ∧ SameButDots (g.blockEntriesIn img b) (entriesOf blk)
  right : ∀ t ∈ D, g.Descended img t.dir ∧ t.block ∈ g.dirBlocksIn img t.dir ∧
    ∀ q, (g.blockEntriesIn new t.block)[t.place]? = some q → RightAt (par t.dir) t.dir t.place q.2

section Mended

variable {g : Globals} {img new : Buf} {par : ℕ → ℕ} {D E : Set Spot} {x b : ℕ}

theorem blockEntriesIn_eq {blk : Buf} (h : g.blockIn img b = some blk) :
    g.blockEntriesIn img b = entriesOf blk := by
  rw [Globals.blockEntriesIn,h,Option.map_some,Option.getD_some]

theorem DirTreeIn.mended (h : DirTreeIn g img) : Mended g img par ∅ img where
  inodes _ _ := rfl
  blocks x hx b hb := by
    obtain ⟨blk,hblk,hwf⟩ := h.blocks x hx b hb
    exact ⟨blk,hblk,hwf,by rw [blockEntriesIn_eq hblk]; exact .refl _⟩
  right t ht := absurd ht (by simp)

theorem Mended.mono (h : Mended g img par D new) (hE : E ⊆ D) : Mended g img par E new :=
  ⟨h.inodes,h.blocks,fun t ht => h.right t (hE ht)⟩

theorem Mended.add (h : Mended g img par D new) (hx : g.Descended img x) (hb : b ∈ g.dirBlocksIn img x)
    {s : Buf} (hs : g.blockIn new b = some s) {n : ℕ}
    (hright : ∀ q, (entriesOf s)[n]? = some q → RightAt (par x) x n q.2) :
    Mended g img par (insert ⟨x,b,n⟩ D) new where
  inodes := h.inodes
  blocks := h.blocks
  right t ht := by
    rcases Set.mem_insert_iff.mp ht with rfl | ht
    · rw [blockEntriesIn_eq hs]
      exact ⟨hx,hb,hright⟩
    · exact h.right t ht

theorem getElem?_replace {α : Type} {pre rest : List α} {a a' : α} {n : ℕ} (hn : n ≠ pre.length) :
    (pre ++ a'::rest)[n]? = (pre ++ a::rest)[n]? := by
  rcases Nat.lt_or_gt_of_ne hn with hlt | hgt
  · rw [List.getElem?_append_left hlt,List.getElem?_append_left hlt]
  · obtain ⟨k,rfl⟩ := Nat.exists_eq_add_of_lt hgt
    rw [List.getElem?_append_right (by omega),List.getElem?_append_right (by omega),
      show pre.length+k+1-pre.length = k+1 by omega,List.getElem?_cons_succ,List.getElem?_cons_succ]

theorem Mended.write (h : Mended g img par D new) (hdvd : sectorSizeBytes ∣ g.blockSize)
    (ht : DirTreeIn g img) (hx : g.Descended img x) (hb : b ∈ g.dirBlocksIn img x) {s : Buf}
    (hs : g.blockIn new b = some s) {pre rest : List (ℕ × DirEntry)} {o v : ℕ} {e : DirEntry}
    (he : entriesOf s = pre ++ (o,e)::rest) (hpre : pre.length < 2) (hv : Numbers v)
    (hright : RightAt (par x) x pre.length { e with inode := v }) :
    Mended g img par (insert ⟨x,b,pre.length⟩ D) (new.patch (g.areaOffset b) (s.putNum o v 4)) ∧
      g.blockIn (new.patch (g.areaOffset b) (s.putNum o v 4)) b = some (s.putNum o v 4) ∧
      entriesOf (s.putNum o v 4) = pre ++ (o,{ e with inode := v })::rest := by
  obtain ⟨blk,hblk,hwf,hsame⟩ := h.blocks x hx b hb
  rw [hs] at hblk
  cases hblk
  have hchain : Chain s 0 (pre ++ (o,e)::rest) := by
    rw [← he]
    exact hwf
  obtain ⟨hes,hwf'⟩ := (hchain.setInode hv.1 hv.2).wellFormed
  obtain ⟨hin,hslice⟩ := (blockIn_eq hdvd).mp hs
  have hsize : (s.putNum o v 4).size = g.blockSize := by rw [Buf.putNum_size,← hslice,Buf.slice_size]
  have hself := blockIn_patch_self hdvd hin hsize
  have hother : ∀ y, g.Descended img y → ∀ c ∈ g.dirBlocksIn img y, y ≠ x ∨ c ≠ b →
      g.blockIn (new.patch (g.areaOffset b) (s.putNum o v 4)) c = g.blockIn new c := fun y hy c hc hne =>
    blockIn_patch_apart hdvd hin hsize (ht.apart y x hy hx c hc b hb hne)
  refine ⟨⟨fun y hy => ?_,fun y hy c hc => ?_,fun t htD => ?_⟩,hself,hes⟩
  · rw [inodeIn_patch_apart hdvd hin hsize (ht.tables x y hx hy b hb),h.inodes y hy]
  · by_cases hyx : y ≠ x ∨ c ≠ b
    · rw [hother y hy c hc hyx]
      exact h.blocks y hy c hc
    · simp only [not_or,not_not] at hyx
      obtain ⟨rfl,rfl⟩ := hyx
      refine ⟨_,hself,hwf',hsame.trans ?_⟩
      rw [hes,he]
      exact sameButDots_set hpre
  · rcases Set.mem_insert_iff.mp htD with rfl | htD
    · refine ⟨hx,hb,fun q hq => ?_⟩
      rw [blockEntriesIn_eq hself,hes] at hq
      simp only [List.getElem?_append_right le_rfl,Nat.sub_self,List.getElem?_cons_zero,
        Option.some.injEq] at hq
      rw [← hq]
      exact hright
    · obtain ⟨hdir,hblock,hr⟩ := h.right t htD
      refine ⟨hdir,hblock,fun q hq => ?_⟩
      by_cases hne : t.dir ≠ x ∨ t.block ≠ b
      · refine hr q ?_
        rwa [Globals.blockEntriesIn,hother t.dir hdir t.block hblock hne] at hq
      · simp only [not_or,not_not] at hne
        rw [hne.2,blockEntriesIn_eq hself,hes] at hq
        by_cases hplace : t.place = pre.length
        · rw [hplace] at hq ⊢
          simp only [List.getElem?_append_right le_rfl,Nat.sub_self,List.getElem?_cons_zero,
            Option.some.injEq] at hq
          rw [← hq,hne.1]
          exact hright
        · refine hr q ?_
          rw [hne.2,blockEntriesIn_eq hs,he,← hq]
          exact (getElem?_replace hplace).symm

end Mended

section Run

variable {g : Globals} {img : Buf} {par : ℕ → ℕ} {D : Set Spot} {x b : ℕ} {visit : ℕ → ℕ → Fsck Unit}

/-- In front of the entries `es` of block `b`, the first of which stands in place `n`. -/
structure AtEntry (g : Globals) (img : Buf) (par : ℕ → ℕ) (D : Set Spot) (b n : ℕ)
    (es : List (ℕ × DirEntry)) (s : Buf) (d : Device) : Prop where
  mended : Mended g img par D d.image
  onDisk : n < 2 → g.blockIn d.image b = some s ∧
    ∃ pre : List (ℕ × DirEntry), entriesOf s = pre ++ es ∧ pre.length = n

theorem AtEntry.place {n : ℕ} {es : List (ℕ × DirEntry)} {s : Buf} {d : Device}
    (h : AtEntry g img par D b n es s d) (hn : n < 2) : (entriesOf s)[n]? = es.head? := by
  obtain ⟨-,pre,he,rfl⟩ := h.onDisk hn
  rw [he,List.getElem?_append_right le_rfl,Nat.sub_self,List.head?_eq_getElem?]

theorem pass1Entry_mends (visit : ℕ → ℕ → Fsck Unit) (hdvd : sectorSizeBytes ∣ g.blockSize) (ht : DirTreeIn g img)
    (hx : g.Descended img x) (hb : b ∈ g.dirBlocksIn img x) (hxn : Numbers x) (hpn : Numbers (par x))
    {n o : ℕ} {e : DirEntry} {es : List (ℕ × DirEntry)} {s : Buf} {d : Device}
    (h : AtEntry g img par D b n ((o,e)::es) s d) (hn : n < 2) :
    ∃ s' d', (pass1Entry g visit b (par x) x n o e s).run d = .ok s' d' ∧
      AtEntry g img par (insert ⟨x,b,n⟩ D) b (n+1) es s' d' := by
  obtain ⟨hs,pre,he,hlen⟩ := h.onDisk hn
  by_cases hright : RightAt (par x) x n e
  · refine ⟨s,d,by rw [pass1Entry_right hright]; rfl,h.mended.add hx hb hs fun q hq => ?_,
      fun _ => ⟨hs,pre ++ [(o,e)],by simp [he],by simp [hlen]⟩⟩
    rw [h.place hn] at hq
    cases hq
    exact hright
  · unfold RightAt at hright
    simp only [Classical.not_imp,not_or,not_and] at hright
    obtain ⟨hd,h₀,h₁⟩ := hright
    obtain ⟨v,hv,hcall,hset⟩ : ∃ v, Numbers v ∧ pass1Entry g visit b (par x) x n o e s =
        (print (.dirEntryIncorrect v e.name e.inode) >>= fun _ => pass1Corrector g s b o v) ∧
        RightAt (par x) x n { e with inode := v } := by
      unfold pass1Entry
      by_cases hz : n = 0
      · exact ⟨x,hxn,by rw [if_pos hd,if_pos hz,if_pos (h₀ hz)],fun _ => Or.inl ⟨hz,rfl⟩⟩
      · have hone : n = 1 := by omega
        exact ⟨par x,hpn,by rw [if_pos hd,if_neg hz,if_pos hone,if_pos (h₁ hone)],
          fun _ => Or.inr ⟨hone,rfl⟩⟩
    subst hlen
    obtain ⟨hmended,hself,hes⟩ := h.mended.write hdvd ht hx hb hs he hn hv hset
    obtain ⟨blk,hblk,hwf,-⟩ := h.mended.blocks x hx b hb
    rw [hs] at hblk
    cases hblk
    have hentry := hwf.entry_in (o,e) (by rw [he]; simp)
    have hsize : (s.putNum o v 4).size = g.blockSize := by
      rw [Buf.putNum_size,← ((blockIn_eq hdvd).mp hs).2,Buf.slice_size]
    have hwrite := write_area_run hdvd (b := b)
      (d := ⟨d.image,d.out ++ [.dirEntryIncorrect v e.name e.inode]⟩)
      (show 0+g.blockSize ≤ (s.putNum o v 4).size by omega)
    rw [Buf.slice_whole hsize] at hwrite
    refine ⟨s.putNum o v 4,⟨d.image.patch (g.areaOffset b) (s.putNum o v 4),
      d.out ++ [.dirEntryIncorrect v e.name e.inode] ++ writeEvents g b⟩,?_,hmended,
      fun _ => ⟨hself,pre ++ [(o,{ e with inode := v })],?_,?_⟩⟩
    · rw [hcall,bind_ok (print_run _ d),pass1Corrector,writeNumberIntoBlock_eq (by omega),
        bind_ok (inBounds_some _ _),bind_ok hwrite]
      rfl
    · rw [hes]
      simp
    · simp

/-- A step that ends well and puts the places of `N` right. -/
def Mends (g : Globals) (img : Buf) (par : ℕ → ℕ) (c : Fsck Unit) (N : Set Spot) : Prop :=
  ∀ D d, Mended g img par D d.image → ∃ d', c.run d = .ok () d' ∧ Mended g img par (D ∪ N) d'.image

variable {N : ℕ → Set Spot}

theorem foldEntries_mends (hdvd : sectorSizeBytes ∣ g.blockSize) (ht : DirTreeIn g img)
    (hx : g.Descended img x) (hb : b ∈ g.dirBlocksIn img x) (hxn : Numbers x) (hpn : Numbers (par x))
    {n : ℕ} {es : List (ℕ × DirEntry)} {s : Buf} {d : Device} (h : AtEntry g img par D b n es s d)
    (hv : ∀ k ∈ picked follows n es, Mends g img par (visit x k) (N k)) :
    ∃ s' d', (foldEntries (pass1Entry g visit b (par x) x) n es s).run d = .ok s' d' ∧
      Mended g img par (D ∪ ({t | t.dir = x ∧ t.block = b ∧ n ≤ t.place ∧ t.place < 2} ∪
        {t | ∃ k ∈ picked follows n es, t ∈ N k})) d'.image := by
  induction es generalizing n s d D with
  | nil =>
    refine ⟨s,d,rfl,h.mended.inodes,h.mended.blocks,fun t htD => ?_⟩
    rcases htD with htD | ⟨hdir,hblock,hn,h2⟩ | ⟨k,hk,-⟩
    · exact h.mended.right t htD
    · obtain ⟨hs,pre,he,hlen⟩ := h.onDisk (by omega)
      rw [hdir,hblock]
      refine ⟨hx,hb,fun q hq => ?_⟩
      rw [blockEntriesIn_eq hs,he,List.append_nil,List.getElem?_eq_none (by omega)] at hq
      cases hq
    · cases hk
  | cons p es ih =>
    obtain ⟨o,e⟩ := p
    have hrest : ∀ k ∈ picked follows (n+1) es, Mends g img par (visit x k) (N k) := fun k hk =>
      hv k (List.mem_append_right _ hk)
    rw [foldEntries]
    by_cases hn : n < 2
    · obtain ⟨s₁,d₁,hrun,h₁⟩ := pass1Entry_mends visit hdvd ht hx hb hxn hpn h hn
      obtain ⟨s₂,d₂,hrun₂,h₂⟩ := ih h₁ hrest
      refine ⟨s₂,d₂,by rw [bind_ok hrun,hrun₂],h₂.mono fun t htD => ?_⟩
      rcases htD with htD | ⟨hdir,hblock,hle,h2⟩ | ⟨k,hk,htk⟩
      · exact Or.inl (Or.inr htD)
      · by_cases hplace : t.place = n
        · refine Or.inl (Or.inl ?_)
          rw [← hdir,← hblock,← hplace]
        · exact Or.inr (Or.inl ⟨hdir,hblock,by omega,h2⟩)
      · refine Or.inr (Or.inr ⟨k,?_,htk⟩)
        rw [picked,show follows n e = false by simp [follows,hn]] at hk
        simpa using hk
    · by_cases hd : dirIsDir e = true
      · have hfol : follows n e = true := by simp [follows,hd]; omega
        obtain ⟨d₁,hrun,h₁⟩ := hv e.inode (by rw [picked,hfol]; simp) D d h.mended
        obtain ⟨s₂,d₂,hrun₂,h₂⟩ := ih (n := n+1) (s := s) (d := d₁) ⟨h₁,fun hn' => by omega⟩ hrest
        have hentry : (pass1Entry g visit b (par x) x n o e s).run d = .ok s d₁ := by
          unfold pass1Entry
          rw [if_pos hd,if_neg (by omega),if_neg (by omega),bind_ok hrun]
          rfl
        refine ⟨s₂,d₂,by rw [bind_ok hentry,hrun₂],h₂.mono fun t htD => ?_⟩
        rcases htD with htD | ⟨-,-,hle,h2⟩ | ⟨k,hk,htk⟩
        · exact Or.inl (Or.inl htD)
        · omega
        · rw [picked,hfol] at hk
          rcases List.mem_append.mp hk with hk | hk
          · rw [if_pos rfl,List.mem_singleton] at hk
            rw [hk] at htk
            exact Or.inl (Or.inr htk)
          · exact Or.inr (Or.inr ⟨k,hk,htk⟩)
      · obtain ⟨s₂,d₂,hrun₂,h₂⟩ := ih (n := n+1) (s := s) (d := d) ⟨h.mended,fun hn' => by omega⟩ hrest
        have hentry : (pass1Entry g visit b (par x) x n o e s).run d = .ok s d := by
          rw [pass1Entry_right fun h => absurd h hd]
          rfl
        refine ⟨s₂,d₂,by rw [bind_ok hentry,hrun₂],h₂.mono fun t htD => ?_⟩
        rcases htD with htD | ⟨-,-,hle,h2⟩ | ⟨k,hk,htk⟩
        · exact Or.inl htD
        · omega
        · rw [picked,show follows n e = false by simp [follows,hd]] at hk
          exact Or.inr (Or.inr ⟨k,by simpa using hk,htk⟩)

theorem Mends.mono {c : Fsck Unit} {M M' : Set Spot} (h : Mends g img par c M) (hM : M' ⊆ M) :
    Mends g img par c M' := fun D d hd =>
  (h D d hd).imp fun _ h' => ⟨h'.1,h'.2.mono (Set.union_subset_union_right D hM)⟩

theorem Mends.bind {c : Fsck Unit} {f : Unit → Fsck Unit} {M M' : Set Spot} (h : Mends g img par c M)
    (hf : Mends g img par (f ()) M') : Mends g img par (c >>= f) (M ∪ M') := by
  intro D d hd
  obtain ⟨d₁,hrun,h₁⟩ := h D d hd
  obtain ⟨d₂,hrun₂,h₂⟩ := hf _ d₁ h₁
  refine ⟨d₂,by rw [bind_ok hrun,hrun₂],?_⟩
  rwa [Set.union_assoc] at h₂

theorem pass1Block_mends (hdvd : sectorSizeBytes ∣ g.blockSize) (ht : DirTreeIn g img)
    (hx : g.Descended img x) (hb : b ∈ g.dirBlocksIn img x) (hxn : Numbers x) (hpn : Numbers (par x))
    (hv : ∀ k ∈ picked follows 0 (g.blockEntriesIn img b), Mends g img par (visit x k) (N k)) (i : ℕ) :
    Mends g img par (pass1Block g visit (par x) x i b ())
      ({t | t.dir = x ∧ t.block = b ∧ t.place < 2} ∪
        {t | ∃ k ∈ picked follows 0 (g.blockEntriesIn img b), t ∈ N k}) := by
  intro D d hd
  obtain ⟨blk,hblk,hwf,hsame⟩ := hd.blocks x hx b hb
  rw [← hsame.picked] at hv ⊢
  have hread := (SameRun.block g b).run_eq (block_readOnly g b) hblk (d := d) rfl
  have hsize : blk.size = g.blockSize := by rw [← ((blockIn_eq hdvd).mp hblk).2,Buf.slice_size]
  have hstart : AtEntry g img par D b 0 (entriesOf blk) blk d := ⟨hd,fun _ => ⟨hblk,[],rfl,rfl⟩⟩
  obtain ⟨s,d',hrun,h⟩ := foldEntries_mends hdvd ht hx hb hxn hpn hstart hv
  refine ⟨d',?_,h.mono fun t htD => ?_⟩
  · rw [pass1Block_fold hread hsize hwf,bind_ok hrun]
    rfl
  · rcases htD with htD | ⟨hdir,hblock,h2⟩ | hk
    · exact Or.inl htD
    · exact Or.inr (Or.inl ⟨hdir,hblock,Nat.zero_le _,h2⟩)
    · exact Or.inr (Or.inr hk)

theorem foldBlocks_mends (hdvd : sectorSizeBytes ∣ g.blockSize) (ht : DirTreeIn g img)
    (hx : g.Descended img x) (hxn : Numbers x) (hpn : Numbers (par x)) {bs : List ℕ}
    (hbs : ∀ b ∈ bs, b ∈ g.dirBlocksIn img x)
    (hv : ∀ b ∈ bs, ∀ k ∈ picked follows 0 (g.blockEntriesIn img b), Mends g img par (visit x k) (N k))
    (i : ℕ) : Mends g img par (foldBlocks (pass1Block g visit (par x) x) i bs ())
      ({t | t.dir = x ∧ t.block ∈ bs ∧ t.place < 2} ∪
        {t | ∃ b ∈ bs, ∃ k ∈ picked follows 0 (g.blockEntriesIn img b), t ∈ N k}) := by
  induction bs generalizing i with
  | nil =>
    intro D d hd
    refine ⟨d,rfl,hd.mono fun t htD => ?_⟩
    rcases htD with htD | ⟨-,hmem,-⟩ | ⟨b,hmem,-⟩
    · exact htD
    · cases hmem
    · cases hmem
  | cons b bs ih =>
    rw [foldBlocks]
    refine ((pass1Block_mends hdvd ht hx (hbs b (by simp)) hxn hpn (hv b (by simp)) i).bind
      (ih (fun c hc => hbs c (by simp [hc])) (fun c hc => hv c (by simp [hc])) (i+1))).mono fun t htD => ?_
    rcases htD with ⟨hdir,hmem,h2⟩ | ⟨c,hmem,hk⟩
    · rcases List.mem_cons.mp hmem with hmem | hmem
      · exact Or.inl (Or.inl ⟨hdir,hmem,h2⟩)
      · exact Or.inr (Or.inl ⟨hdir,hmem,h2⟩)
    · rcases List.mem_cons.mp hmem with rfl | hmem
      · exact Or.inl (Or.inr hk)
      · exact Or.inr (Or.inr ⟨c,hmem,hk⟩)

/-- The places below `x`: the first two of each block of the directories reached from it. -/
def Globals.spotsBelow (g : Globals) (img : Buf) (x : ℕ) : Set Spot :=
  {t | Reach (g.pass1KidsIn img) x t.dir ∧ t.block ∈ g.dirBlocksIn img t.dir ∧ t.place < 2}

theorem pass1_mends (hdvd : sectorSizeBytes ∣ g.blockSize) (ht : DirTreeIn g img)
    (hpar : ∀ x, g.Descended img x → ∀ k ∈ g.pass1KidsIn img x, par k = x)
    (hnum : ∀ x, g.Descended img x → Numbers x ∧ Numbers (par x)) {l : List ℕ}
    (hu : Unfolds (g.pass1KidsIn img) [x] l) : g.Descended img x → ∀ fuel, l.length ≤ fuel →
      Mends g img par (pass1 g fuel (par x) x) (g.spotsBelow img x) := by
  refine hu.tree_induction (P := fun x l => g.Descended img x → ∀ fuel, l.length ≤ fuel →
    Mends g img par (pass1 g fuel (par x) x) (g.spotsBelow img x)) fun x l hkids ih hx fuel hfuel => ?_
  rw [List.length_cons] at hfuel
  cases fuel with
  | zero => omega
  | succ fuel =>
    have hmem : ∀ b ∈ g.dirBlocksIn img x, ∀ k ∈ picked follows 0 (g.blockEntriesIn img b),
        k ∈ g.pass1KidsIn img x := fun b hb k hk => List.mem_flatMap.mpr ⟨b,hb,hk⟩
    have hvisit : ∀ b ∈ g.dirBlocksIn img x, ∀ k ∈ picked follows 0 (g.blockEntriesIn img b),
        Mends g img par (pass1 g fuel x k) (g.spotsBelow img k) := by
      intro b hb k hk
      obtain ⟨m,hm,hml⟩ := hkids.sub_unfolds (hkids.starts_mem k (hmem b hb k hk))
      have hlen := hml.length_le
      have h := ih k m (hmem b hb k hk) hm hlen (fun y hy => hml.subset hy) (hx.tail (hmem b hb k hk)) fuel
        (by omega)
      rwa [hpar x hx k (hmem b hb k hk)] at h
    have hblocks := foldBlocks_mends hdvd ht hx (hnum x hx).1 (hnum x hx).2 (fun b hb => hb) hvisit 0
    intro D d hd
    obtain ⟨d',hrun,h⟩ := hblocks D d hd
    obtain ⟨inode,hin⟩ := ht.inode x hx
    have hnew := hd.inodes x hx
    rw [hin] at hnew
    refine ⟨d',?_,h.mono fun t htD => ?_⟩
    · rw [pass1_succ,pass1Call,bind_ok ((SameRun.readInode g x).run_eq (readInode_readOnly g x) hnew rfl),
        notInodeIsDir_false,forBlocks_eq,← dirBlocksIn_eq hin]
      exact (bind_ok (show (silent x).run d = .ok () d from rfl)).trans hrun
    · rcases htD with htD | ⟨hreach,hblock,h2⟩
      · exact Or.inl htD
      · rcases Relation.ReflTransGen.cases_head hreach with heq | ⟨k,hk,hreach⟩
        · exact Or.inr (Or.inl ⟨heq.symm,heq ▸ hblock,h2⟩)
        · obtain ⟨b,hb,hk⟩ := List.mem_flatMap.mp hk
          exact Or.inr (Or.inr ⟨b,hb,k,hk,hreach,hblock,h2⟩)

end Run

section Twice

variable {g : Globals} {img : Buf} {x : ℕ}

theorem DirTreeIn.numbers (ht : DirTreeIn g img) (hx : g.Descended img x) : Numbers x := by
  rcases Relation.ReflTransGen.cases_tail hx with heq | ⟨y,hy,hk⟩
  · rw [heq]
    unfold Numbers
    decide
  · obtain ⟨b,hb,hk⟩ := List.mem_flatMap.mp hk
    obtain ⟨blk,hblk,hwf⟩ := ht.blocks y hy b hb
    rw [picked_follows,blockEntriesIn_eq hblk] at hk
    obtain ⟨e,he,rfl⟩ := List.mem_map.mp hk
    obtain ⟨q,hq,rfl⟩ := List.mem_map.mp (List.mem_filter.mp he).1
    have hmem := List.mem_of_mem_drop hq
    refine ⟨hwf.inode_pos q hmem,?_⟩
    rw [(hwf.entry_in q hmem).2.1]
    exact (num_lt _ _ _).trans_eq (by norm_num)

theorem Mended.quiet {par : ℕ → ℕ} {d : Device} (hdvd : sectorSizeBytes ∣ g.blockSize)
    (ht : DirTreeIn g img) (h : Mended g img par (g.spotsBelow img rootInodeNum) d.image)
    (hx : g.Descended img x) : QuietDir g d (g.pass1KidsIn img x) (par x) x := by
  obtain ⟨inode,hin⟩ := ht.inode x hx
  have hnew := h.inodes x hx
  rw [hin] at hnew
  refine ⟨inode,(SameRun.readInode g x).run_eq (readInode_readOnly g x) hnew rfl,fun b hb => ?_⟩
  rw [← dirBlocksIn_eq hin] at hb
  obtain ⟨blk,hblk,hwf,hsame⟩ := h.blocks x hx b hb
  refine ⟨blk,(SameRun.block g b).run_eq (block_readOnly g b) hblk rfl,?_,hwf,fun n hn q hq => ?_,fun k hk => ?_⟩
  · rw [← ((blockIn_eq hdvd).mp hblk).2,Buf.slice_size]
  · refine (h.right ⟨x,b,n⟩ ⟨hx,hb,hn⟩).2.2 q ?_
    rwa [blockEntriesIn_eq hblk]
  · rw [hsame.picked] at hk
    exact List.mem_flatMap.mpr ⟨b,hb,hk⟩

/-- From some depth on `pass1` ends from the root, and a second run then prints and writes nothing. -/
theorem pass1_twice (hdvd : sectorSizeBytes ∣ g.blockSize) (ht : DirTreeIn g img) :
    ∃ n, ∀ fuel ≥ n, ∀ d : Device, d.image = img →
      ∃ d₁, (pass1 g fuel rootInodeNum rootInodeNum).run d = .ok () d₁ ∧
        ∀ fuel' ≥ n, (pass1 g fuel' rootInodeNum rootInodeNum).run d₁ = .ok () d₁ := by
  obtain ⟨par,hroot,hpar⟩ := ht.tree.exists_parent
  obtain ⟨l,hl⟩ := ht.tree.acyclic.unfolds ht.finite
  have hnum : ∀ x, g.Descended img x → Numbers x ∧ Numbers (par x) := by
    intro x hx
    refine ⟨ht.numbers hx,?_⟩
    rcases Relation.ReflTransGen.cases_tail hx with rfl | ⟨y,hy,hk⟩
    · rw [hroot]
      exact ht.numbers hx
    · rw [hpar y hy x hk]
      exact ht.numbers hy
  refine ⟨l.length,fun fuel hfuel d hd => ?_⟩
  subst hd
  have hmends := pass1_mends hdvd ht hpar hnum hl .refl fuel hfuel
  rw [hroot] at hmends
  obtain ⟨d₁,hrun,h₁⟩ := hmends ∅ d ht.mended
  rw [Set.empty_union] at h₁
  refine ⟨d₁,hrun,fun fuel' hfuel' => ?_⟩
  refine pass1_stays hl (fun y hy k hk => ?_) rootInodeNum ?_ fuel' hfuel'
  · have hy' : g.Descended d.image y := hl.mem_iff.mp hy
    have hquiet := h₁.quiet hdvd ht (hy'.tail hk)
    rwa [hpar y hy' k hk] at hquiet
  · have hquiet := h₁.quiet hdvd ht (x := rootInodeNum) .refl
    rwa [hroot] at hquiet

end Twice

/-- The root names directory 11, and none of the dots is right. -/
def crookedImage : Buf := exampleImage 16 [
  inodePiece 2 (inodeBytes 0x41ED 1024 3 [7]),
  inodePiece 11 (inodeBytes 0x41ED 1024 2 [8]),
  blockPiece 7 0 (entryBytes 5 12 2 [46]),
  blockPiece 7 12 (entryBytes 4294967295 12 2 [46,46]),
  blockPiece 7 24 (entryBytes 11 1000 2 [97]),
  blockPiece 8 0 (entryBytes 3 12 2 [46]),
  blockPiece 8 12 (entryBytes 900 1012 2 [46,46])]

theorem crooked_tree : DirTreeIn (exampleGlobals 16) crookedImage := by
  have hl : Unfolds ((exampleGlobals 16).pass1KidsIn crookedImage) [2] [2,11] :=
    unfolds_of_unfoldFrom (n := 3) (by decide +kernel)
  have hmem : ∀ x, (exampleGlobals 16).Descended crookedImage x → x ∈ [2,11] := fun x hx => hl.mem_iff.mpr hx
  have hcheck : ∀ x ∈ [2,11], 2 ∉ (exampleGlobals 16).pass1KidsIn crookedImage x ∧
      (∀ y ∈ [2,11], ∀ z ∈ (exampleGlobals 16).pass1KidsIn crookedImage x,
        z ∈ (exampleGlobals 16).pass1KidsIn crookedImage y → x = y) ∧
      ((exampleGlobals 16).inodeIn crookedImage x).isSome ∧
      ∀ b ∈ (exampleGlobals 16).dirBlocksIn crookedImage x, 7 ≤ b ∧ b ≤ 16 ∧
        ((exampleGlobals 16).blockIn crookedImage b).any (fun blk => chainCheck blk blk.size 0) = true ∧
        ∀ y ∈ [2,11], ∀ c ∈ (exampleGlobals 16).dirBlocksIn crookedImage y, x ≠ y ∨ b ≠ c → b ≠ c := by
    decide +kernel
  have hg : Geometry (exampleGlobals 16) := by decide
  refine ⟨(List.finite_toSet [2,11]).subset hmem,⟨fun x hx => (hcheck x (hmem x hx)).1,
    fun x y z hx hy => (hcheck x (hmem x hx)).2.1 y (hmem y hy) z⟩,fun x hx =>
    Option.isSome_iff_exists.mp (hcheck x (hmem x hx)).2.2.1,fun x hx b hb => ?_,
    fun x y hx hy b hb c hc hne => ?_,fun x y hx hy b hb t ht => ?_⟩
  · have hb' := (hcheck x (hmem x hx)).2.2.2 b hb
    obtain ⟨blk,hblk,hwf⟩ := (Option.any_eq_true _ _).mp hb'.2.2.1
    exact ⟨blk,hblk,wellFormedBlock_of_check hwf⟩
  · have hb' := (hcheck x (hmem x hx)).2.2.2 b hb
    have hc' := (hcheck y (hmem y hy)).2.2.2 c hc
    exact hg.apart hb'.2.1 hc'.2.1 (hb'.2.2.2 y (hmem y hy) c hc hne)
  · have hb' := (hcheck x (hmem x hx)).2.2.2 b hb
    have hy' : 1 ≤ y ∧ y ≤ (exampleGlobals 16).superBlock.sInodesCount := by
      have := hmem y hy
      simp only [List.mem_cons,List.not_mem_nil,or_false] at this
      rcases this with rfl | rfl <;> decide
    have ht' := tree_tables ⟨y,hy'.1,hy'.2,ht⟩
    exact hg.apart (show t ≤ 16 by omega) hb'.2.1 (by omega)

theorem pass1_twice_crooked : (∃ u d, (pass1 (exampleGlobals 16) 2 rootInodeNum rootInodeNum).run
      ⟨crookedImage,[]⟩ = .ok u d ∧ decide (Event.writeBlock 7 ∈ d.out ∧ Event.writeBlock 8 ∈ d.out) = true) ∧
    ∃ n, ∀ fuel ≥ n, ∃ d₁, (pass1 (exampleGlobals 16) fuel rootInodeNum rootInodeNum).run
        ⟨crookedImage,[]⟩ = .ok () d₁ ∧
      ∀ fuel' ≥ n, (pass1 (exampleGlobals 16) fuel' rootInodeNum rootInodeNum).run d₁ = .ok () d₁ := by
  obtain ⟨n,hn⟩ := pass1_twice (by decide) crooked_tree
  exact ⟨exists_of_endsIn (by decide +kernel),n,fun fuel hfuel => hn fuel hfuel ⟨crookedImage,[]⟩ rfl⟩

end MyFsck
