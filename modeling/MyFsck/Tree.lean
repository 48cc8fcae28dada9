import MyFsck.BlockScan
import MyFsck.Links
import Mathlib.Algebra.BigOperators.Group.Finset.Basic

/-! The tree of directories as the ext2 format has it: every entry in use counts, wherever in its block
it stands, and the mode of the inode says what is a directory. The walks of the program follow the
entries in front of the first unused one of each block. -/
namespace MyFsck

open ByteBuffer Unfolding

def pointerAt (b : Buf) (i : ℕ) : ℕ := num b.byte (4*i) 4

section Format

variable (g : Globals) (img : Buf)

/-- Pointer `i` of the pointer block `p`; an absent pointer block has no pointers. -/
def Globals.indirect (p i : ℕ) : ℕ := if p = 0 then 0 else pointerAt (g.blockAt img p) i

/-- The block that holds block `k` of a file without triple-indirect block; 0 for a hole. -/
def Globals.blockOf (inode : Inode) (k : ℕ) : ℕ :=
  if k < 12 then inode.iBlock.getD k 0
  else if k < 12+256 then g.indirect img (inode.iBlock.getD 12 0) (k-12)
  else g.indirect img (g.indirect img (inode.iBlock.getD 13 0) ((k-268)/256)) ((k-268)%256)

def Globals.sizeInBlocks (inode : Inode) : ℕ := (inode.iSize+g.blockSize-1)/g.blockSize

/-- The blocks of a directory within its size. -/
def Globals.dirData (x : ℕ) : List ℕ :=
  (List.range (g.sizeInBlocks (g.inodeAt img x))).map (g.blockOf img (g.inodeAt img x))

/-- Its entries, used and unused, block by block. -/
def Globals.slots (x : ℕ) : List (List (ℕ × DirEntry)) :=
  (g.dirData img x).map fun b => slotsOf (g.blockAt img b)

/-- Its entries in use. -/
def Globals.used (x : ℕ) : List (List (ℕ × DirEntry)) := (g.slots img x).map fun l => l.filter inUse

/-- The inode numbers in them. -/
def Globals.usedNames (x : ℕ) : List ℕ := (g.used img x).flatten.map fun p => p.2.inode

/-- All of them but `.` and `..`. -/
def Globals.children (x : ℕ) : List DirEntry := (dropDots (g.used img x)).map Prod.snd

def Globals.dirsBelow (x : ℕ) : List ℕ :=
  ((g.children img x).map DirEntry.inode).filter fun k => inodeIsDir (g.inodeAt img k)

def Globals.InTree (x : ℕ) : Prop := Reach (g.dirsBelow img) rootInodeNum x

/-- The inode is the root, or an entry of the tree names it, the dots left out. -/
def Globals.InUseBy (i : ℕ) : Prop :=
  i = rootInodeNum ∨ ∃ x, g.InTree img x ∧ i ∈ (g.children img x).map DirEntry.inode

open Classical in
/-- The number of entries in use that name inode `i`. -/
noncomputable def Globals.naming (i : ℕ) : ℕ :=
  ∑ x ∈ (Finset.Icc 1 g.superBlock.sInodesCount).filter (g.InTree img), (g.usedNames img x).count i

/-- No pointer of the inode leads past its size. -/
structure EndsAtSize (inode : Inode) : Prop where
  direct : ∀ k < 12, g.sizeInBlocks inode ≤ k → inode.iBlock.getD k 0 = 0
  single : g.sizeInBlocks inode ≤ 12 → inode.iBlock.getD 12 0 = 0
  double : g.sizeInBlocks inode ≤ 268 → inode.iBlock.getD 13 0 = 0
  triple : g.sizeInBlocks inode ≤ 65804 → inode.iBlock.getD 14 0 = 0

/-- A directory without holes whose blocks are filled up by entries. -/
structure ConsistentDir (x : ℕ) : Prop where
  no_hole : ∀ b ∈ g.dirData img x, b ≠ 0
  whole : ∀ b ∈ g.dirData img x, Whole (g.blockAt img b)
  names_le : ∀ n ∈ g.usedNames img x, n ≤ g.superBlock.sInodesCount
  ends : EndsAtSize g (g.inodeAt img x)

/-- The entries in use behind the first unused one of a block. -/
def behindUnused (l : List (ℕ × DirEntry)) : List (ℕ × DirEntry) := (l.dropWhile inUse).filter inUse

/-- No entry in use of the directory stands behind an unused one. -/
def Globals.UsedFirst (x : ℕ) : Prop := ∀ l ∈ g.slots img x, behindUnused l = []

instance (x : ℕ) : Decidable (g.UsedFirst img x) :=
  inferInstanceAs (Decidable (∀ l ∈ g.slots img x, behindUnused l = []))

/-- A well-formed directory of up to twelve blocks: it begins with two entries in use, its dots. -/
structure FormedDir (x : ℕ) : Prop extends ConsistentDir g img x where
  num_pos : 1 ≤ x
  num_le : x ≤ g.superBlock.sInodesCount
  size_le : g.sizeInBlocks (g.inodeAt img x) ≤ 12
  blocks_lt : ∀ b ∈ g.dirData img x, b < g.superBlock.sBlocksCount
  begins : ∃ p q es ls, g.slots img x = (p::q::es)::ls ∧ inUse p = true ∧ inUse q = true

end Format

section Lists

theorem filter_inUse (l : List (ℕ × DirEntry)) :
    l.filter inUse = l.takeWhile inUse ++ behindUnused l := by
  conv_lhs => rw [← List.takeWhile_append_dropWhile (p := inUse) (l := l),List.filter_append]
  rw [List.filter_eq_self.mpr fun _ hp => List.mem_takeWhile_imp hp,behindUnused]

theorem takeWhile_pointers {l : List ℕ} {n : ℕ} (h : ∀ k < n, l.getD k 0 ≠ 0) (hn : l.getD n 0 = 0) :
    l.takeWhile (· ≠ 0) = (List.range n).map fun k => l.getD k 0 := by
  induction l generalizing n with
  | nil =>
    cases n with
    | zero => rfl
    | succ n => exact absurd rfl (h 0 (by omega))
  | cons a l ih =>
    cases n with
    | zero =>
      have ha : a = 0 := hn
      simp [ha]
    | succ n =>
      have ha : a ≠ 0 := h 0 (by omega)
      have hrest := ih (fun k hk => h (k+1) (by omega)) hn
      rw [List.takeWhile_cons_of_pos (by simpa using ha),hrest,List.range_succ_eq_map,List.map_cons,
        List.map_map]
      rfl

theorem nonDotBlocks_dropDots (ls : List (List (ℕ × DirEntry))) :
    nonDotBlocks 0 ls = (dropDots ls).map Prod.snd := by
  cases ls with
  | nil => rfl
  | cons l ls =>
    rw [nonDotBlocks,nonDotFrom_drop,nonDotBlocks_later (by omega),dropDots,List.map_append]

theorem countP_eq_iff {α : Type} {p q : α → Bool} {l : List α} (h : ∀ a ∈ l, p a = true → q a = true) :
    l.countP p = l.countP q ↔ ∀ a ∈ l, q a = true → p a = true := by
  refine ⟨fun heq a ha hq => ?_,fun h' => List.countP_congr fun a ha => ⟨h a ha,h' a ha⟩⟩
  have hboth : l.filter p = (l.filter q).filter p := by
    rw [List.filter_filter]
    exact List.filter_congr fun a ha => by
      cases hp : p a with
      | true => rw [h a ha hp]; rfl
      | false => rfl
  have hsub : (l.filter p).Sublist (l.filter q) := hboth ▸ List.filter_sublist
  have hfilter := hsub.eq_of_length (by
    rw [← List.countP_eq_length_filter,heq,List.countP_eq_length_filter])
  exact (List.mem_filter.mp (hfilter ▸ List.mem_filter.mpr ⟨ha,hq⟩)).2

theorem used_perm (ls : List (List (ℕ × DirEntry))) : ((ls.map fun l => l.filter inUse).flatten).Perm
    ((ls.map (List.takeWhile inUse)).flatten ++ (ls.map behindUnused).flatten) := by
  induction ls with
  | nil => exact .refl _
  | cons l ls ih =>
    simp only [List.map_cons,List.flatten_cons]
    rw [filter_inUse,List.append_assoc,List.append_assoc]
    refine List.Perm.append_left _ ((ih.append_left _).trans ?_)
    rw [← List.append_assoc,← List.append_assoc]
    exact List.perm_append_comm.append_right _

end Lists

section Named

variable {g : Globals} {img : Buf} {x : ℕ}

theorem dropDots_flatten {α : Type} {ls : List (List α)} {a : α} (h : a ∈ dropDots ls) :
    a ∈ ls.flatten := by
  cases ls with
  | nil => cases h
  | cons l ls =>
    rw [dropDots,List.mem_append] at h
    rw [List.flatten_cons,List.mem_append]
    exact h.imp_left List.mem_of_mem_drop

theorem children_named {e : DirEntry} (he : e ∈ g.children img x) : e.inode ∈ g.usedNames img x := by
  obtain ⟨q,hq,rfl⟩ := List.mem_map.mp he
  exact List.mem_map.mpr ⟨q,dropDots_flatten hq,rfl⟩

theorem usedNames_pos {n : ℕ} (hn : n ∈ g.usedNames img x) : 1 ≤ n := by
  obtain ⟨q,hq,rfl⟩ := List.mem_map.mp hn
  obtain ⟨l,hl,hq⟩ := List.mem_flatten.mp hq
  obtain ⟨l',_,rfl⟩ := List.mem_map.mp hl
  have huse := (List.mem_filter.mp hq).2
  simp only [inUse,bne_iff_ne] at huse
  omega

theorem tree_inUseBy (hx : g.InTree img x) : g.InUseBy img x := by
  rcases Relation.ReflTransGen.cases_tail hx with rfl | ⟨y,hy,hk⟩
  · exact Or.inl rfl
  · exact Or.inr ⟨y,hy,(List.mem_filter.mp hk).1⟩

theorem naming_eq {ds : List ℕ} (hu : Unfolds (g.dirsBelow img) [rootInodeNum] ds) (hnodup : ds.Nodup)
    (hle : ∀ x ∈ ds, x ≤ g.superBlock.sInodesCount) (i : ℕ) :
    g.naming img i = (ds.map fun x => (g.usedNames img x).count i).sum := by
  classical
  rw [Globals.naming,← List.sum_toFinset _ hnodup]
  refine Finset.sum_congr (Finset.ext fun x => ?_) fun _ _ => rfl
  simp only [Finset.mem_filter,Finset.mem_Icc,List.mem_toFinset,hu.mem_iff,Globals.InTree,
    and_iff_right_iff_imp]
  intro hx
  refine ⟨?_,hle x (hu.mem_iff.mpr hx)⟩
  rcases Relation.ReflTransGen.cases_tail hx with rfl | ⟨y,_,hk⟩
  · decide
  · obtain ⟨e,he,rfl⟩ := List.mem_map.mp (List.mem_filter.mp hk).1
    exact usedNames_pos (children_named he)

theorem ConsistentDir.blocks (hd : ConsistentDir g img x) (hsize : g.sizeInBlocks (g.inodeAt img x) ≤ 12) :
    g.dirBlocks img x = g.dirData img x := by
  have hblock : ∀ k < 12, g.blockOf img (g.inodeAt img x) k = (g.inodeAt img x).iBlock.getD k 0 :=
    fun k hk => by rw [Globals.blockOf,if_pos hk]
  have hmap : g.dirData img x = (List.range (g.sizeInBlocks (g.inodeAt img x))).map fun k =>
      (g.inodeAt img x).iBlock.getD k 0 :=
    List.map_congr_left fun k hk => hblock k (by rw [List.mem_range] at hk; omega)
  rw [hmap,Globals.dirBlocks]
  refine takeWhile_pointers (fun k hk => ?_) ?_
  · rw [← hblock k (by omega)]
    exact hd.no_hole _ (List.mem_map_of_mem (List.mem_range.mpr hk))
  · by_cases h : g.sizeInBlocks (g.inodeAt img x) = 12
    · rw [h]
      exact hd.ends.single (by omega)
    · exact hd.ends.direct _ (by omega) le_rfl

theorem behindUnused_nil {l : List (ℕ × DirEntry)} :
    behindUnused l = [] ↔ l.Pairwise fun p q => inUse p = false → inUse q = false := by
  rw [← takeWhile_eq_filter_iff,filter_inUse,List.self_eq_append_right]

theorem entriesOf_slots (b : Buf) : entriesOf b = (slotsOf b).takeWhile inUse := by
  have hfrom : ∀ n off, entriesFrom b n off = (slotsFrom b n off).takeWhile inUse := by
    intro n
    induction n with
    | zero => exact fun _ => rfl
    | succ n ih =>
      intro off
      rw [entriesFrom,slotsFrom]
      by_cases hoff : off < b.size
      · by_cases hz : num b.byte off 4 = 0
        · have hu : inUse (off,entryAt b off) = false := by simpa [inUse,entryAt] using hz
          rw [if_pos hoff,if_neg fun h => h.2 hz,List.takeWhile_cons,hu]
          rfl
        · have hu : inUse (off,entryAt b off) = true := by simpa [inUse,entryAt] using hz
          rw [if_pos hoff,if_pos ⟨hoff,hz⟩,List.takeWhile_cons_of_pos hu,ih]
      · rw [if_neg hoff,if_neg fun h => hoff h.1]
        rfl
  exact hfrom b.size 0

section Blocks

variable (hb : g.dirBlocks img x = g.dirData img x)
include hb

theorem dirEntries_slots : g.dirEntries img x = (g.slots img x).map (List.takeWhile inUse) := by
  rw [Globals.dirEntries,hb,Globals.slots,List.map_map]
  exact List.map_congr_left fun b _ => entriesOf_slots _

theorem nonDot_slots : g.nonDot img x =
    (dropDots ((g.slots img x).map (List.takeWhile inUse))).map Prod.snd := by
  rw [Globals.nonDot,dirEntries_slots hb,nonDotBlocks_dropDots]

theorem dirEntries_used (hu : g.UsedFirst img x) : g.dirEntries img x = g.used img x := by
  rw [dirEntries_slots hb,Globals.used]
  exact List.map_congr_left fun l hl => by rw [filter_inUse,hu l hl,List.append_nil]

theorem nonDot_eq_children (hu : g.UsedFirst img x) : g.nonDot img x = g.children img x := by
  rw [Globals.nonDot,dirEntries_used hb hu,nonDotBlocks_dropDots,Globals.children]

theorem nonDot_sublist_children : (g.nonDot img x).Sublist (g.children img x) := by
  rw [nonDot_slots hb,Globals.children,Globals.used]
  refine List.Sublist.map _ ?_
  have hfront : ∀ l : List (ℕ × DirEntry), (l.takeWhile inUse).Sublist (l.filter inUse) := fun l => by
    rw [filter_inUse]
    exact List.sublist_append_left _ _
  cases g.slots img x with
  | nil => exact List.Sublist.refl _
  | cons l ls =>
    simp only [List.map_cons,dropDots]
    refine List.Sublist.append ?_ ?_
    · rw [filter_inUse,List.drop_append]
      exact List.sublist_append_left _ _
    · induction ls with
      | nil => exact List.Sublist.refl _
      | cons m ms ih => exact (hfront m).append ih

end Blocks

namespace FormedDir

variable (h : FormedDir g img x)
include h

theorem dirBlocks_eq : g.dirBlocks img x = g.dirData img x := h.toConsistentDir.blocks h.size_le

theorem block {b : ℕ} (hb : b ∈ g.dirData img x) :
    entriesOf (g.blockAt img b) = (slotsOf (g.blockAt img b)).takeWhile inUse ∧
      WellFormedBlock (g.blockAt img b) := (Slots.chain (h.whole b hb)).wellFormed

theorem dirEntries_eq : g.dirEntries img x = (g.slots img x).map (List.takeWhile inUse) :=
  dirEntries_slots h.dirBlocks_eq

theorem named_sublist : (g.named img x).Sublist (g.usedNames img x) := by
  rw [Globals.named,h.dirEntries_eq,Globals.usedNames,Globals.used]
  refine List.Sublist.map _ ?_
  induction g.slots img x with
  | nil => exact List.Sublist.refl _
  | cons l ls ih =>
    simp only [List.map_cons,List.flatten_cons]
    refine List.Sublist.append ?_ ih
    rw [filter_inUse]
    exact List.sublist_append_left _ _

theorem nonDot_eq : g.nonDot img x =
    (dropDots ((g.slots img x).map (List.takeWhile inUse))).map Prod.snd := nonDot_slots h.dirBlocks_eq

theorem nonDot_sublist : (g.nonDot img x).Sublist (g.children img x) :=
  nonDot_sublist_children h.dirBlocks_eq

theorem children_perm : (g.children img x).Perm
    (g.nonDot img x ++ ((g.slots img x).map behindUnused).flatten.map Prod.snd) := by
  obtain ⟨p,q,es,ls,hs,hp,hq⟩ := h.begins
  rw [h.nonDot_eq,Globals.children,Globals.used,← List.map_append]
  refine List.Perm.map _ ?_
  rw [hs,List.map_cons,List.map_cons,List.map_cons,dropDots,dropDots,filter_inUse,List.flatten_cons,
    List.takeWhile_cons_of_pos hp,List.takeWhile_cons_of_pos hq]
  simp only [List.cons_append,List.drop_succ_cons,List.drop_zero]
  rw [List.append_assoc,List.append_assoc]
  refine List.Perm.append_left _ (((used_perm ls).append_left _).trans ?_)
  rw [← List.append_assoc,← List.append_assoc]
  exact List.perm_append_comm.append_right _

theorem subdirs_sublist (ht : ∀ e ∈ g.children img x, dirIsDir e = true →
    inodeIsDir (g.inodeAt img e.inode) = true) : (g.subdirs img x).Sublist (g.dirsBelow img x) := by
  rw [Globals.subdirs,Globals.dirsBelow,List.filter_map]
  refine List.Sublist.map _ ?_
  have hboth : (g.nonDot img x).filter dirIsDir =
      (g.nonDot img x).filter fun e => dirIsDir e && inodeIsDir (g.inodeAt img e.inode) :=
    List.filter_congr fun e he => by
      cases hd : dirIsDir e with
      | true => rw [ht e (h.nonDot_sublist.subset he) hd]; rfl
      | false => rfl
  rw [hboth,← List.filter_filter]
  exact List.filter_sublist.trans (h.nonDot_sublist.filter _)

theorem subdirs_eq_iff (ht : ∀ e ∈ g.children img x, dirIsDir e = true →
    inodeIsDir (g.inodeAt img e.inode) = true) : g.subdirs img x = g.dirsBelow img x ↔
      (∀ e ∈ g.children img x, inodeIsDir (g.inodeAt img e.inode) = true → dirIsDir e = true) ∧
      ∀ l ∈ g.slots img x, ∀ q ∈ behindUnused l, inodeIsDir (g.inodeAt img q.2.inode) = false := by
  have hsub := h.subdirs_sublist ht
  have hlen : (g.subdirs img x).length = (g.nonDot img x).countP dirIsDir := by
    rw [Globals.subdirs,List.length_map,List.countP_eq_length_filter]
  have hlen' : (g.dirsBelow img x).length =
      (g.nonDot img x).countP (fun e => inodeIsDir (g.inodeAt img e.inode)) +
      (((g.slots img x).map behindUnused).flatten.map Prod.snd).countP fun e =>
        inodeIsDir (g.inodeAt img e.inode) := by
    rw [← List.countP_append,← (h.children_perm).countP_eq,Globals.dirsBelow,
      ← List.countP_eq_length_filter,List.countP_map,Function.comp_def]
  have hnonDot : ∀ e ∈ g.nonDot img x, dirIsDir e = true → inodeIsDir (g.inodeAt img e.inode) = true :=
    fun e he => ht e (h.nonDot_sublist.subset he)
  have hle := List.countP_mono_left hnonDot
  have hhidden : (((g.slots img x).map behindUnused).flatten.map Prod.snd).countP
      (fun e => inodeIsDir (g.inodeAt img e.inode)) = 0 ↔
      ∀ l ∈ g.slots img x, ∀ q ∈ behindUnused l, inodeIsDir (g.inodeAt img q.2.inode) = false := by
    simp only [List.countP_eq_zero,List.mem_map,List.mem_flatten,Bool.not_eq_true]
    constructor
    · exact fun h l hl q hq => h q.2 ⟨q,⟨_,⟨l,hl,rfl⟩,hq⟩,rfl⟩
    · rintro h e ⟨q,⟨_,⟨l,hl,rfl⟩,hq⟩,rfl⟩
      exact h l hl q hq
  constructor
  · intro heq
    rw [heq] at hlen
    have hfront := hhidden.mp (by omega)
    refine ⟨fun e he hd => ?_,hfront⟩
    rcases List.mem_append.mp (h.children_perm.mem_iff.mp he) with he | he
    · exact (countP_eq_iff hnonDot).mp (by omega) e he hd
    · obtain ⟨q,hq,rfl⟩ := List.mem_map.mp he
      obtain ⟨_,hl,hq⟩ := List.mem_flatten.mp hq
      obtain ⟨l,hl',rfl⟩ := List.mem_map.mp hl
      rw [hfront l hl' q hq] at hd
      cases hd
  · rintro ⟨htyped,hfront⟩
    refine hsub.eq_of_length ?_
    rw [hlen,hlen',hhidden.mpr hfront,Nat.add_zero]
    exact (countP_eq_iff hnonDot).mpr fun e he => htyped e (h.nonDot_sublist.subset he)

theorem dirOk : DirOk g img x where
  num_pos := h.num_pos
  num_le := h.num_le
  blocks_lt _ hb := h.blocks_lt _ (h.dirBlocks_eq ▸ hb)
  wellFormed _ hb := (h.block (h.dirBlocks_eq ▸ hb)).2
  named_le n hn := h.names_le n (h.named_sublist.subset hn)

section UsedFirst

variable (hu : g.UsedFirst img x)
include hu

theorem block_used {b : ℕ} (hb : b ∈ g.dirData img x) :
    entriesOf (g.blockAt img b) = (slotsOf (g.blockAt img b)).filter inUse := by
  rw [(h.block hb).1,filter_inUse,hu _ (List.mem_map_of_mem hb),List.append_nil]

theorem entries_used : g.dirEntries img x = g.used img x := dirEntries_used h.dirBlocks_eq hu

theorem named_eq : g.named img x = g.usedNames img x := by
  rw [Globals.named,h.entries_used hu,Globals.usedNames]

theorem nonDot_children : g.nonDot img x = g.children img x := nonDot_eq_children h.dirBlocks_eq hu

theorem subdirs_eq (ht : ∀ e ∈ g.children img x, dirIsDir e = inodeIsDir (g.inodeAt img e.inode)) :
    g.subdirs img x = g.dirsBelow img x := by
  rw [Globals.subdirs,h.nonDot_children hu,Globals.dirsBelow,List.filter_map]
  exact congrArg (List.map DirEntry.inode) (List.filter_congr ht)

end UsedFirst

end FormedDir

/-- The directories of the tree are well formed, their entries in use stand in front, and the types of
the entries are right: the program walks the tree as it is. -/
structure SeenTree (g : Globals) (img : Buf) : Prop where
  dirs : ∀ x, g.InTree img x → FormedDir g img x
  used_first : ∀ x, g.InTree img x → g.UsedFirst img x
  types : ∀ x, g.InTree img x → ∀ e ∈ g.children img x, dirIsDir e = inodeIsDir (g.inodeAt img e.inode)

namespace SeenTree

variable (h : SeenTree g img)
include h

theorem named_eq (hx : g.InTree img x) : g.named img x = g.usedNames img x :=
  (h.dirs x hx).named_eq (h.used_first x hx)

theorem nonDot_eq (hx : g.InTree img x) : g.nonDot img x = g.children img x :=
  (h.dirs x hx).nonDot_children (h.used_first x hx)

theorem subdirs_eq (hx : g.InTree img x) : g.subdirs img x = g.dirsBelow img x :=
  (h.dirs x hx).subdirs_eq (h.used_first x hx) (h.types x hx)

theorem reach_subdirs : Reach (g.subdirs img) rootInodeNum x ↔ g.InTree img x :=
  Reach.congr fun _ hy => h.subdirs_eq hy

theorem dirTree (hacyc : Acyclic (g.dirsBelow img) rootInodeNum) : DirTree g img where
  acyclic := hacyc.of_sub fun _ hy _ hk => h.subdirs_eq (h.reach_subdirs.mp hy) ▸ hk
  dirs _ hy := (h.dirs _ (h.reach_subdirs.mp hy)).dirOk

theorem unfolds_iff {ds : List ℕ} : Unfolds (g.subdirs img) [rootInodeNum] ds ↔
    Unfolds (g.dirsBelow img) [rootInodeNum] ds :=
  ⟨fun hu => hu.congr fun _ hy => (h.subdirs_eq (h.reach_subdirs.mp (hu.mem_iff.mp hy))).symm,
    fun hu => hu.congr fun _ hy => h.subdirs_eq (hu.mem_iff.mp hy)⟩

end SeenTree

end Named

section Check

variable (g : Globals) (img : Buf) (x : ℕ)

def formedDirCheck : Bool :=
  decide (1 ≤ x ∧ x ≤ g.superBlock.sInodesCount ∧ g.sizeInBlocks (g.inodeAt img x) ≤ 12) &&
    (g.dirData img x).all (fun b => decide (b ≠ 0 ∧ b < g.superBlock.sBlocksCount) &&
      slotsCheck (g.blockAt img b) (g.blockAt img b).size 0) &&
    (g.usedNames img x).all (fun n => decide (n ≤ g.superBlock.sInodesCount)) &&
    (List.range 15).all (fun k => decide (g.sizeInBlocks (g.inodeAt img x) ≤ k →
      (g.inodeAt img x).iBlock.getD k 0 = 0)) &&
    match g.slots img x with
    | (p::q::_)::_ => inUse p && inUse q
    | _ => false

variable {g img x}

theorem formedDir_of_check (h : formedDirCheck g img x = true) : FormedDir g img x := by
  simp only [formedDirCheck,Bool.and_eq_true,decide_eq_true_eq,List.all_eq_true,List.mem_range] at h
  obtain ⟨⟨⟨⟨⟨h1,hle,hsize⟩,hblocks⟩,hnames⟩,hends⟩,hdots⟩ := h
  refine ⟨⟨fun b hb => (hblocks b hb).1.1,fun b hb => whole_of_check (hblocks b hb).2,hnames,?_⟩,h1,hle,hsize,
    fun b hb => (hblocks b hb).1.2,?_⟩
  · exact ⟨fun k hk => hends k (by omega),fun hk => hends 12 (by decide) hk,
      fun _ => hends 13 (by decide) (by omega),fun _ => hends 14 (by decide) (by omega)⟩
  · split at hdots
    · rename_i p q es ls hs
      rw [Bool.and_eq_true] at hdots
      exact ⟨p,q,es,ls,hs,hdots.1,hdots.2⟩
    · cases hdots

end Check

end MyFsck
