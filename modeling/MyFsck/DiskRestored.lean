import MyFsck.SameBlocks
import MyFsck.CleanRuns
import Mathlib.Order.Filter.AtTopBot.Basic
import Mathlib.Order.Filter.Finite

/-! A disk with several damaged file systems: the loop over its partitions gives each of them back that it
runs the passes on, and changes nothing else. -/
namespace MyFsck

open ByteBuffer ErrorState Unfolding Stretch

/-- `c` with the bytes of `b` at the places of `S`. -/
def grafted (S : ℕ → Prop) [DecidablePred S] (b c : Buf) : Buf :=
  Buf.ofFn c.size fun k => if S k then b.byte k else c.byte k

section Grafted

variable {S : ℕ → Prop} [DecidablePred S] {b c : Buf} {k : ℕ}

@[simp] theorem grafted_size : (grafted S b c).size = c.size := rfl

theorem grafted_in (hs : b.size = c.size) (hk : S k) : (grafted S b c).byte k = b.byte k := by
  rw [grafted,Buf.ofFn_byte]
  split
  · rfl
  · rw [Buf.past_end _ _ (by omega)]

theorem grafted_out (hk : ¬ S k) : (grafted S b c).byte k = c.byte k := by
  rw [grafted,Buf.ofFn_byte]
  split
  · rfl
  · rw [Buf.past_end _ _ (by omega)]

end Grafted

/-- The sectors that describe the stretches of an extended partition, from sector `s` on. -/
def stretchSectors : ℕ → List Stretch → List ℕ
  | _, [] => []
  | s, .logical e::ss => s::stretchSectors (e.start+e.length) ss
  | s, .free n::ss => s::stretchSectors (s+n) ss

def tableSectors (primaries : List PartitionEntry) (ss : List Stretch) : List ℕ :=
  0::((primaries.find? fun e => e.type = dosExtendedPartition).map fun e =>
    stretchSectors e.start ss).getD []

section Tables

variable {img img' : Buf}

theorem entryOf_congr {s offset : ℕ} (ho : offset+16 ≤ sectorSizeBytes)
    (h : ∀ k < sectorSizeBytes, img'.byte (s*sectorSizeBytes+k) = img.byte (s*sectorSizeBytes+k)) :
    entryOf img' s offset = entryOf img s offset := by
  have hnum : ∀ p, p+4 ≤ 16 → num img'.byte (s*sectorSizeBytes+offset+p) 4 =
      num img.byte (s*sectorSizeBytes+offset+p) 4 := fun p hp => num_congr fun k hk => by
    rw [Nat.add_assoc,Nat.add_assoc,h _ (by omega)]
  rw [entryOf,entryOf,hnum 8 (by omega),hnum 12 (by omega),Nat.add_assoc (s*sectorSizeBytes),h _ (by omega)]

theorem Laid.congr {stop s : ℕ} {ss : List Stretch} (h : Laid img stop s ss) (hs : img'.size = img.size)
    (hb : ∀ t ∈ stretchSectors s ss, ∀ k < sectorSizeBytes,
      img'.byte (t*sectorSizeBytes+k) = img.byte (t*sectorSizeBytes+k)) : Laid img' stop s ss := by
  induction h with
  | done => exact .done
  | logical hlt hin he ht hlen _ ih =>
    refine .logical hlt (hs ▸ hin) ?_ ht hlen (ih fun t ht' => hb t (List.mem_cons_of_mem _ ht'))
    rw [entryOf_congr (by decide) (hb _ List.mem_cons_self),he]
  | free hn hin hzero _ ih =>
    refine .free hn (hs ▸ hin) (fun k hk => ?_) (ih fun t ht' => hb t (List.mem_cons_of_mem _ ht'))
    rw [hb _ List.mem_cons_self k hk,hzero k hk]

theorem Disk.congr {primaries : List PartitionEntry} {ss : List Stretch} (h : Disk img primaries ss)
    (hs : img'.size = img.size) (hb : ∀ t ∈ tableSectors primaries ss, ∀ k < sectorSizeBytes,
      img'.byte (t*sectorSizeBytes+k) = img.byte (t*sectorSizeBytes+k)) : Disk img' primaries ss where
  mbr_in := hs ▸ h.mbr_in
  primaries_eq := by
    rw [h.primaries_eq]
    refine List.map_congr_left fun i hi => (entryOf_congr ?_ (hb 0 List.mem_cons_self)).symm
    have := List.mem_range.mp hi
    simp only [firstPartitionOffset,partitionEntrySize,sectorSizeBytes]
    omega
  extended e he := by
    obtain ⟨hlt,hlaid⟩ := h.extended e he
    refine ⟨hlt,hlaid.congr hs fun t ht => hb t (List.mem_cons_of_mem _ ?_)⟩
    rw [he]
    exact ht
  none_extended := h.none_extended

end Tables

/-- The bytes in which the blocks of the file system stand. -/
def Globals.Spans (g : Globals) (k : ℕ) : Prop :=
  g.blockOffset 0 ≤ k ∧ k < g.blockOffset g.superBlock.sBlocksCount

instance (g : Globals) : DecidablePred g.Spans := fun _ => inferInstanceAs (Decidable (_ ∧ _))

section FileSystem

variable {g : Globals} {img img' clean : Buf}

theorem GroupLayout.spans (hl : GroupLayout g) {b j : ℕ} (hb : b < g.superBlock.sBlocksCount)
    (hj : j < g.blockSize) : g.Spans (g.blockOffset b+j) := by
  have hle := hl.geometry.sizes.offset_le hb
  have h0 := hl.geometry.sizes.offset_eq 0
  have hb' := hl.geometry.sizes.offset_eq b
  refine ⟨?_,by omega⟩
  rw [h0,hb']
  omega

theorem GroupLayout.sameBlocks (hl : GroupLayout g) (h : ∀ k, g.Spans k → img'.byte k = img.byte k) :
    SameBlocks g img img' := fun b hb => by
  refine Buf.ext_byte rfl fun j hj => ?_
  have hj' : j < g.blockSize := by simpa using hj
  exact (Buf.slice_byte _ hj').trans ((h _ (hl.spans hb hj')).trans (Buf.slice_byte _ hj').symm)

theorem Damaged.head (hl : GroupLayout g) (ht : DirTree g clean) {d : Device} (h : Damaged g clean d)
    (hdirs : ∀ x, Reach (g.subdirs clean) rootInodeNum x → ∀ b ∈ g.dirBlocks clean x, g.dataBlock b)
    {b : ℕ} (hb : b = 1 ∨ b = 2) : g.blockAt d.image b = g.blockAt clean b := by
  have hskip := hl.skip_lt
  have hplace : (b-1)%g.superBlock.sBlocksPerGroup = b-1 := by
    refine Nat.mod_eq_of_lt ?_
    simp only [Globals.skip] at hskip
    omega
  have hplain : g.PlainBlock b := by
    refine ⟨fun i h1 hi he => ?_,fun a ha he => ?_⟩
    · have h₁ := (hl.tableBlock_place (hl.inodeBlock_table h1 hi)).1
      rw [← he,hplace] at h₁
      omega
    · have h₁ := hl.bitmap_place ha
      rw [← he,hplace] at h₁
      omega
  refine Buf.ext_byte rfl fun j hj => ?_
  have hj' : j < g.blockSize := by simpa using hj
  by_contra hne
  obtain ⟨p,-,⟨x,hx,c,hc,q,hq,h₁,h₂⟩,hk⟩ := h.plain_place hl hplain hj' hne
  have hx' : Reach (g.subdirs clean) rootInodeNum x :=
    Relation.ReflTransGen.mono (fun _ _ hk => pass1Kids_subdirs hk) _ _ hx
  have hin := dot_in ((ht.dirs x hx').wellFormed c hc) hq
  obtain rfl := place_block hl.geometry.sizes hj' hk.symm (c := c) (by omega) (by omega)
  have hdata := (hdirs x hx' b hc).2.2
  rw [hplace] at hdata
  simp only [Globals.skip] at hdata
  omega

theorem consistent_dataBlocks (hc : Consistent g clean) (hp : WithinLimits g clean) {x : ℕ}
    (hx : Reach (g.subdirs clean) rootInodeNum x) : ∀ b ∈ g.dirBlocks clean x, g.dataBlock b := by
  intro b hb
  have hx' := (consistent_seen hc hp).reach_subdirs.mp hx
  exact hc.owned x b (Or.inl (tree_inUseBy hx')) ((tree_owns hc hp hx' b).mpr hb)

theorem consistent_plainTree (hl : GroupLayout g) (hc : Consistent g clean) (hp : WithinLimits g clean) :
    PlainTree g clean where
  dirs x hx b hb := hl.data_plain (consistent_dataBlocks hc hp hx b hb)
  marks x hx b hb a ha := by
    have hx' := (reach_walkKids hc hp).mp hx
    by_cases h0 : b = 0
    · have := (hl.bitmap_lt ha).1
      omega
    · exact (hl.data_plain (hc.owned x b (Or.inl hx') ((ownMarks_iff hl hc hp hx' h0).mp hb))).2 a ha

end FileSystem

section Disk

variable (clean : Buf) (primaries : List PartitionEntry) (ss : List Stretch)

/-- The ext2 partitions have consistent file systems, within the limits of the program, which stand
apart from each other and from the partition tables. -/
structure ConsistentDisk : Prop where
  disk : Disk clean primaries ss
  small : ∀ e ∈ ext2Of (primaries ++ front ss), (superAt clean e.start).sLogBlockSize = 0
  layout : ∀ e ∈ ext2Of (primaries ++ front ss), GroupLayout (smallGlobals e clean)
  fits : ∀ e ∈ ext2Of (primaries ++ front ss), (smallGlobals e clean).Fits clean
  consistent : ∀ e ∈ ext2Of (primaries ++ front ss), Consistent (smallGlobals e clean) clean
  limits : ∀ e ∈ ext2Of (primaries ++ front ss), WithinLimits (smallGlobals e clean) clean
  apart : ∀ e ∈ ext2Of (primaries ++ front ss), ∀ e' ∈ ext2Of (primaries ++ front ss), e ≠ e' →
    ∀ k, (smallGlobals e clean).Spans k → ¬ (smallGlobals e' clean).Spans k
  tables : ∀ e ∈ ext2Of (primaries ++ front ss), ∀ t ∈ tableSectors primaries ss,
    ∀ k < sectorSizeBytes, ¬ (smallGlobals e clean).Spans (t*sectorSizeBytes+k)

/-- The image is the clean disk but for damage in its file systems. -/
structure DamagedDisk (img : Buf) : Prop where
  size_eq : img.size = clean.size
  outside : ∀ k, (∀ e ∈ ext2Of (primaries ++ front ss), ¬ (smallGlobals e clean).Spans k) →
    img.byte k = clean.byte k
  inside : ∀ e ∈ ext2Of (primaries ++ front ss),
    Damaged (smallGlobals e clean) clean ⟨grafted (smallGlobals e clean).Spans img clean,[]⟩

/-- The image with the clean file systems on the partitions of `r`. -/
def mended (r : List PartitionEntry) (img : Buf) : Buf :=
  grafted (fun k => ∃ e ∈ r, (smallGlobals e clean).Spans k) clean img

/-- The partitions the loop runs the passes on while it goes through `es`, wherever it stops. -/
def worked (left : ℤ → ℤ) (j : ℕ) (es : List PartitionEntry) : List PartitionEntry :=
  (treated left j es).getD (ext2Of es)

end Disk

section Mended

variable {clean img : Buf} {primaries : List PartitionEntry} {ss : List Stretch} {e : PartitionEntry}
  {r : List PartitionEntry}

@[simp] theorem mended_size : (mended clean r img).size = img.size := rfl

theorem mended_in (hs : img.size = clean.size) {k : ℕ} (he : e ∈ r) (hk : (smallGlobals e clean).Spans k) :
    (mended clean r img).byte k = clean.byte k := grafted_in hs.symm ⟨e,he,hk⟩

theorem mended_out {k : ℕ} (hk : ∀ e ∈ r, ¬ (smallGlobals e clean).Spans k) :
    (mended clean r img).byte k = img.byte k := grafted_out fun ⟨e,he,h⟩ => hk e he h

theorem mended_nil : mended clean [] img = img :=
  Buf.ext_byte rfl fun _ _ => mended_out fun _ he => absurd he List.not_mem_nil

theorem mended_cons (hs : img.size = clean.size) :
    mended clean (e::r) img = mended clean r (mended clean [e] img) := by
  refine Buf.ext_byte rfl fun k _ => ?_
  by_cases hr : ∃ e' ∈ r, (smallGlobals e' clean).Spans k
  · obtain ⟨e',he',hk⟩ := hr
    rw [mended_in hs (List.mem_cons_of_mem _ he') hk,
      mended_in (show (mended clean [e] img).size = clean.size from hs) he' hk]
  · simp only [not_exists,not_and] at hr
    rw [mended_out hr]
    by_cases hk : (smallGlobals e clean).Spans k
    · rw [mended_in hs List.mem_cons_self hk,mended_in hs List.mem_cons_self hk]
    · rw [mended_out fun e' he' => by rcases List.mem_cons.mp he' with rfl | he' <;> [exact hk; exact hr e' he'],
        mended_out fun e' he' => by rwa [List.mem_singleton.mp he']]

variable (hc : ConsistentDisk clean primaries ss) (hd : DamagedDisk clean primaries ss img)
include hc hd

theorem DamagedDisk.disk : Disk img primaries ss :=
  hc.disk.congr hd.size_eq fun t ht k hk => hd.outside _ fun e he => hc.tables e he t ht k hk

variable (he : e ∈ ext2Of (primaries ++ front ss))
include he

theorem DamagedDisk.mend : DamagedDisk clean primaries ss (mended clean [e] img) where
  size_eq := hd.size_eq
  outside k hk := by
    rw [mended_out fun e' he' => by rw [List.mem_singleton.mp he']; exact hk e he]
    exact hd.outside k hk
  inside e' he' := by
    by_cases heq : e' = e
    · have hsame : grafted (smallGlobals e' clean).Spans (mended clean [e] img) clean = clean := by
        refine Buf.ext_byte rfl fun k _ => ?_
        by_cases hk : (smallGlobals e' clean).Spans k
        · rw [grafted_in (b := mended clean [e] img) hd.size_eq hk,
            mended_in hd.size_eq (List.mem_singleton.mpr rfl) (heq ▸ hk)]
        · exact grafted_out hk
      rw [hsame]
      exact Damaged.none (consistent_tree (hc.consistent e' he') (hc.limits e' he')) []
    · have hsame : grafted (smallGlobals e' clean).Spans (mended clean [e] img) clean =
          grafted (smallGlobals e' clean).Spans img clean := by
        refine Buf.ext_byte rfl fun k _ => ?_
        by_cases hk : (smallGlobals e' clean).Spans k
        · rw [grafted_in hd.size_eq hk,grafted_in (b := mended clean [e] img) hd.size_eq hk]
          exact mended_out fun e'' he'' => by
            rw [List.mem_singleton.mp he'']
            exact hc.apart e' he' e he heq k hk
        · rw [grafted_out hk,grafted_out hk]
      rw [hsame]
      exact hd.inside e' he'

end Mended

section Treat

variable {clean : Buf} {primaries : List PartitionEntry} {ss : List Stretch} {e : PartitionEntry} {d : Device}
  (hc : ConsistentDisk clean primaries ss) (hd : DamagedDisk clean primaries ss d.image)
  (he : e ∈ ext2Of (primaries ++ front ss))
include hc hd he

theorem DamagedDisk.alone : SameBlocks (smallGlobals e clean)
    (grafted (smallGlobals e clean).Spans d.image clean) d.image :=
  (hc.layout e he).sameBlocks fun _ hk => (grafted_in hd.size_eq hk).symm

theorem DamagedDisk.load : (loadGlobals e).run d = .ok (smallGlobals e clean) d := by
  have hl := hc.layout e he
  have ht := consistent_tree (hc.consistent e he) (hc.limits e he)
  have hlt := (hl.bitmap_lt hl.blockGroups_pos).2
  have hhome := hl.block_bitmap 0 hl.blockGroups_pos
  simp only [Globals.groupStart] at hhome
  have hoff : ∀ b, (smallGlobals e clean).blockOffset b = e.start*sectorSizeBytes+b*1024 :=
    fun b => hl.geometry.sizes.offset_eq b
  have hhead : ∀ b, b = 1 ∨ b = 2 → ∀ k < 1024, d.image.byte (e.start*sectorSizeBytes+b*1024+k) =
      clean.byte (e.start*sectorSizeBytes+b*1024+k) := by
    intro b hb k hk
    have hlt' : b < (smallGlobals e clean).superBlock.sBlocksCount := by omega
    have hblock := (hd.alone hc he b hlt').trans ((hd.inside e he).head hl ht (fun x hx =>
      consistent_dataBlocks (hc.consistent e he) (hc.limits e he) hx) hb)
    rw [← hoff,← Buf.slice_byte d.image hk,← Buf.slice_byte clean hk]
    exact congrArg (fun b => b.byte k) hblock
  have hsuper : superAt d.image e.start = superAt clean e.start := superOf_congr fun k hk => by
    have h1 := hhead 1 (Or.inl rfl) k hk
    rwa [Nat.one_mul] at h1
  have hsame : smallGlobals e d.image = smallGlobals e clean := by
    have hdesc : d.image.slice (e.start*sectorSizeBytes+2048) 1024 =
        clean.slice (e.start*sectorSizeBytes+2048) 1024 := Buf.ext_byte rfl fun k hk => by
      have hk' : k < 1024 := by simpa using hk
      rw [Buf.slice_byte _ hk',Buf.slice_byte _ hk']
      exact hhead 2 (Or.inr rfl) k hk'
    rw [smallGlobals,hsuper,hdesc,smallGlobals]
  have hin : e.start*sectorSizeBytes+3072 ≤ d.image.size := by
    have hfits := hc.fits e he
    unfold Globals.Fits at hfits
    rw [hoff] at hfits
    rw [hd.size_eq]
    omega
  rw [loadGlobals_small (by rw [hsuper]; exact hc.small e he) hin,hsame]

theorem DamagedDisk.treat {fuel : ℕ} (hfuel : DeepEnough (smallGlobals e clean) clean fuel) :
    ∃ d', (loadGlobals e >>= fun g => passes g fuel).run d = .ok () d' ∧
      d'.image = mended clean [e] d.image := by
  have hl := hc.layout e he
  have hs := consistent_settled hl (hc.consistent e he) (hc.limits e he)
  have hp := consistent_plainTree hl (hc.consistent e he) (hc.limits e he)
  have hsame : SameBlocks (smallGlobals e clean) clean (mended clean [e] d.image) :=
    hl.sameBlocks fun k hk => mended_in hd.size_eq List.mem_cons_self hk
  have hsub : flipped (mended clean [e] d.image) d ⊆
      flipped clean ⟨grafted (smallGlobals e clean).Spans d.image clean,[]⟩ := by
    rintro p ⟨h1,hne⟩
    refine ⟨h1,?_⟩
    unfold bitAt at hne ⊢
    by_cases hk : (smallGlobals e clean).Spans ((p-1)/8)
    · rw [mended_in hd.size_eq List.mem_cons_self hk] at hne
      rwa [grafted_in hd.size_eq hk]
    · rw [mended_out fun e' he' => by rwa [List.mem_singleton.mp he']] at hne
      exact absurd rfl hne
  have hdam := (hd.inside e he).congr hl hs.tree hsame (hd.alone hc he) rfl hsub
  have hf : (smallGlobals e clean).Fits (mended clean [e] d.image) := by
    unfold Globals.Fits
    rw [mended_size,hd.size_eq]
    exact hc.fits e he
  obtain ⟨d',hrun,him⟩ := (hsame.settled hl hs).passes_restore hl hf (hsame.plainTree hl hs hp)
    (hsame.deepEnough hl hs hfuel) hdam
  exact ⟨d',by rw [bind_ok (hd.load hc he),hrun],him⟩

end Treat

section Loop

variable {left : ℤ → ℤ} {j : ℕ} {e : PartitionEntry} {es : List PartitionEntry}

theorem worked_invalid (ht : e.type = invalidType) : worked left j (e::es) = [] := by
  rw [worked,treated,if_pos ht]
  rfl

theorem worked_other (ht : e.type ≠ invalidType) (ht' : e.type ≠ ext2Fs) :
    worked left j (e::es) = worked left (j+1) es := by
  rw [worked,worked,treated,if_neg ht,if_neg ht',ext2Of,ext2Of,List.filter_cons_of_neg (by simp [ht'])]

theorem worked_last (ht : e.type ≠ invalidType) (ht' : e.type = ext2Fs) (hl : left ((j+1:ℕ):ℤ) = -1) :
    worked left j (e::es) = [e] := by
  rw [worked,treated,if_neg ht,if_pos ht',if_pos hl]
  rfl

theorem worked_next (ht : e.type ≠ invalidType) (ht' : e.type = ext2Fs) (hl : left ((j+1:ℕ):ℤ) ≠ -1) :
    worked left j (e::es) = e::worked left (j+1) es := by
  rw [worked,worked,treated,if_neg ht,if_pos ht',if_neg hl,ext2Of,ext2Of,
    List.filter_cons_of_pos (by simp [ht'])]
  cases treated left (j+1) es with
  | none => rfl
  | some r => rfl

theorem treated_next (h : treated left j (e::es) ≠ none) (ht : e.type ≠ invalidType)
    (hl : ¬ (e.type = ext2Fs ∧ left ((j+1:ℕ):ℤ) = -1)) : treated left (j+1) es ≠ none := by
  intro hno
  rw [treated,if_neg ht,hno] at h
  by_cases ht' : e.type = ext2Fs
  · rw [if_pos ht',if_neg fun he => hl ⟨ht',he⟩] at h
    exact h rfl
  · rw [if_neg ht'] at h
    exact h rfl

end Loop

section Run

variable {clean : Buf} {primaries : List PartitionEntry} {ss : List Stretch} {stack : ℕ → Byte} {fuel : ℕ}
  {left : ℤ → ℤ}

theorem correctAll_restores (hc : ConsistentDisk clean primaries ss)
    (hdeep : ∀ e ∈ ext2Of (primaries ++ front ss), DeepEnough (smallGlobals e clean) clean fuel)
    (hfuel : (front ss).length+1 ≤ fuel) {es : List PartitionEntry} {j : ℕ}
    (hj : (primaries ++ front ss).drop j = es) (hlen : j+es.length = (primaries ++ front ss).length)
    (hstops : treated left j es ≠ none ∨ hasFree ss = false) {turns : ℕ} (hturns : es.length < turns)
    {d : Device} (hd : DamagedDisk clean primaries ss d.image) (old : PartitionEntry) :
    ∃ d', (correctAll stack fuel left turns ((j+1:ℕ):ℤ) old).run d = .ok (worked left j es) d' ∧
      d'.image = mended clean (worked left j es) d.image := by
  induction es generalizing j turns d old with
  | nil =>
    obtain ⟨turns,rfl⟩ : ∃ m, turns = m+1 := ⟨turns-1,by omega⟩
    have hno : hasFree ss = false := hstops.resolve_left fun h => h rfl
    obtain ⟨r,hrun,ht⟩ := @Disk.info_end stack d _ _ (hd.disk hc) hno j fuel
      (by rw [List.length_nil] at hlen; omega) hfuel old
    refine ⟨d,?_,mended_nil.symm⟩
    rw [correctAll,bind_ok (correctOne_invalid hrun ht)]
    rfl
  | cons e es ih =>
    rw [List.length_cons] at hlen hturns
    obtain ⟨turns,rfl⟩ : ∃ m, turns = m+1 := ⟨turns-1,by omega⟩
    have hget : (primaries ++ front ss)[j]? = some e := by
      have hdrop := congrArg (fun l => l[0]?) hj
      simpa [List.getElem?_drop] using hdrop
    have hread : (readPartitionInfo stack fuel old ((j+1:ℕ):ℤ)).run d = .ok e d :=
      (hd.disk hc).info_run hget hfuel old
    have hnext : ((j+1:ℕ):ℤ)+1 = ((j+1+1:ℕ):ℤ) := by push_cast; ring
    have hrest : e.type ≠ invalidType → ¬ (e.type = ext2Fs ∧ left ((j+1:ℕ):ℤ) = -1) →
        treated left (j+1) es ≠ none ∨ hasFree ss = false :=
      fun ht hl => hstops.imp_left fun h => treated_next h ht hl
    by_cases ht : e.type = invalidType
    · rw [worked_invalid ht]
      refine ⟨d,?_,mended_nil.symm⟩
      rw [correctAll,bind_ok (correctOne_invalid hread ht)]
      rfl
    · by_cases ht' : e.type = ext2Fs
      · have he : e ∈ ext2Of (primaries ++ front ss) :=
          List.mem_filter.mpr ⟨List.mem_of_getElem? hget,by simpa using ht'⟩
        obtain ⟨d₁,hpass,him⟩ := hd.treat hc he (hdeep e he)
        have hstep := correctOne_ext2 hread ht' hpass
        by_cases hl : left ((j+1:ℕ):ℤ) = -1
        · rw [worked_last ht ht' hl]
          refine ⟨d₁,?_,him⟩
          rw [correctAll,bind_ok hstep]
          dsimp only [Option.getD_none]
          rw [if_pos hl]
          rfl
        · obtain ⟨d',hrun,him'⟩ := ih (drop_succ hj) (by omega) (hrest ht fun h => hl h.2)
            (show es.length < turns by omega)
            (him ▸ hd.mend hc he) e
          rw [worked_next ht ht' hl,mended_cons hd.size_eq,← him]
          refine ⟨d',?_,him'⟩
          rw [correctAll,bind_ok hstep]
          dsimp only [Option.getD_none]
          rw [if_neg hl,hnext,bind_ok hrun]
          rfl
      · obtain ⟨d',hrun,him⟩ := ih (drop_succ hj) (by omega) (hrest ht fun h => ht' h.1)
          (show es.length < turns by omega) hd e
        rw [worked_other ht ht']
        refine ⟨d',?_,him⟩
        rw [correctAll,bind_ok (correctOne_other hread ht ht'),hnext]
        dsimp only [Option.getD_some]
        rw [if_neg (by decide),bind_ok hrun,passesRunOn,Option.isNone_some,if_neg Bool.false_ne_true]
        rfl

theorem worked_sublist (left : ℤ → ℤ) (j : ℕ) (es : List PartitionEntry) :
    ∀ e ∈ worked left j es, e ∈ ext2Of es := by
  induction es generalizing j with
  | nil => exact fun e he => he
  | cons e es ih =>
    have hrest : ∀ e' ∈ ext2Of es, e' ∈ ext2Of (e::es) := fun e' he' =>
      List.mem_filter.mpr ⟨List.mem_cons_of_mem _ (List.mem_filter.mp he').1,(List.mem_filter.mp he').2⟩
    intro e' he'
    by_cases ht : e.type = invalidType
    · rw [worked_invalid ht] at he'
      cases he'
    by_cases ht' : e.type = ext2Fs
    · have hfirst : e ∈ ext2Of (e::es) := List.mem_filter.mpr ⟨List.mem_cons_self,by simpa using ht'⟩
      by_cases hl : left ((j+1:ℕ):ℤ) = -1
      · rw [worked_last ht ht' hl] at he'
        rwa [List.mem_singleton.mp he']
      · rw [worked_next ht ht' hl] at he'
        rcases List.mem_cons.mp he' with rfl | he'
        · exact hfirst
        · exact hrest e' (ih (j+1) e' he')
    · rw [worked_other ht ht'] at he'
      exact hrest e' (ih (j+1) e' he')

theorem mended_eq_iff (hc : ConsistentDisk clean primaries ss) {img : Buf}
    (hd : DamagedDisk clean primaries ss img) {r : List PartitionEntry}
    (hr : ∀ e ∈ r, e ∈ ext2Of (primaries ++ front ss)) : mended clean r img = clean ↔
      ∀ e ∈ ext2Of (primaries ++ front ss), e ∈ r ∨
        ∀ k, (smallGlobals e clean).Spans k → img.byte k = clean.byte k := by
  constructor
  · intro heq e he
    by_cases her : e ∈ r
    · exact Or.inl her
    · refine Or.inr fun k hk => ?_
      have hout : (mended clean r img).byte k = img.byte k := mended_out fun e' he' =>
        hc.apart e he e' (hr e' he') (fun h => her (h ▸ he')) k hk
      rw [← hout,heq]
  · intro h
    refine Buf.ext_byte hd.size_eq fun k _ => ?_
    by_cases hk : ∃ e ∈ r, (smallGlobals e clean).Spans k
    · obtain ⟨e,he,hk⟩ := hk
      exact mended_in hd.size_eq he hk
    · simp only [not_exists,not_and] at hk
      rw [mended_out hk]
      by_cases hin : ∃ e ∈ ext2Of (primaries ++ front ss), (smallGlobals e clean).Spans k
      · obtain ⟨e,he,hek⟩ := hin
        exact (h e he).resolve_left (fun her => hk e her hek) k hek
      · simp only [not_exists,not_and] at hin
        exact hd.outside k hin

end Run

/-- `cleanDisk` with a wrong `..` in `lost+found`, 7 links of file 12 and the block behind its own marked. -/
def damagedDisk : Buf := ((cleanDisk.putNum 8716 12 4).putNum 7066 7 2).set 3585 3

theorem damaged_byte {k : ℕ} (h : damagedDisk.byte k ≠ cleanDisk.byte k) :
    (8716 ≤ k ∧ k < 8720) ∨ (7066 ≤ k ∧ k < 7068) ∨ k = 3585 := by
  by_contra hno
  refine h ?_
  rw [damagedDisk,Buf.set_byte_ne (by omega),Buf.putNum_byte_out (by omega),Buf.putNum_byte_out (by omega)]

theorem damaged_clean : Damaged cleanGlobals cleanDisk ⟨damagedDisk,[]⟩ where
  size_eq := by simp [damagedDisk]
  places := by
    rintro p ⟨h1,hne⟩
    have hbyte : damagedDisk.byte ((p-1)/8) ≠ cleanDisk.byte ((p-1)/8) := fun he => by
      unfold bitAt at hne
      rw [he] at hne
      exact hne rfl
    rcases damaged_byte hbyte with hk | hk | hk
    · have hkid : (11 : ℕ) ∈ cleanGlobals.pass1Kids cleanDisk rootInodeNum := by decide +kernel
      obtain ⟨q,hq,hq'⟩ := (show ∃ q ∈ dots (entriesOf (cleanGlobals.blockAt cleanDisk 8)), q.1 = 12 by
        decide +kernel)
      have hoff : cleanGlobals.blockOffset 8 = 8704 := by decide
      exact Or.inl ⟨11,.tail .refl hkid,8,by decide +kernel,q,hq,by omega,by omega⟩
    · have hpos : cleanGlobals.linkPos 12 = 7066 := by decide +kernel
      exact Or.inr (Or.inl ⟨12,by decide,by decide +kernel,fun h0 => absurd h0 (by decide +kernel),by omega⟩)
    · have hoff : cleanGlobals.blockOffset (cleanGlobals.blockBitmap 0) = 3584 := by decide +kernel
      have hsize : cleanGlobals.blockSize = 1024 := rfl
      have hbits : ∀ j < 8, (damagedDisk.byte 3585).getLsbD j ≠ (cleanDisk.byte 3585).getLsbD j →
          cleanGlobals.dataBlock (9+j) := by decide +kernel
      unfold bitAt at hne
      rw [hk] at hne
      refine Or.inr (Or.inr ⟨0,by decide +kernel,8+(p-1)%8,by omega,by omega,Or.inr ?_⟩)
      have hdata := hbits _ (Nat.mod_lt _ (by decide)) hne
      rwa [show 0*cleanGlobals.blockSize*8+(8+(p-1)%8)+1 = 9+(p-1)%8 by omega]
  used x hx b hb q hq := by
    have hx' := clean_tree.inTree_iff.mp ((consistent_seen clean_tree.consistent clean_within).reach_subdirs.mp
      (Relation.ReflTransGen.mono (fun _ _ hk => pass1Kids_subdirs hk) _ _ hx))
    exact (show ∀ x ∈ [2,11], ∀ b ∈ cleanGlobals.dirBlocks cleanDisk x,
      ∀ q ∈ dots (entriesOf (cleanGlobals.blockAt cleanDisk b)),
        num (cleanGlobals.blockAt damagedDisk b).byte q.1 4 ≠ 0 by decide +kernel) x hx' b hb q hq

/-- The partition table of `cleanDisk`. -/
def cleanTable : List PartitionEntry := [⟨ext2Fs,1,32⟩,⟨0,0,0⟩,⟨0,0,0⟩,⟨0,0,0⟩]

theorem mem_clean {e : PartitionEntry} (he : e ∈ ext2Of (cleanTable ++ front [])) : e = ⟨ext2Fs,1,32⟩ :=
  List.mem_singleton.mp he

theorem clean_spans {k : ℕ} : cleanGlobals.Spans k ↔ 512 ≤ k ∧ k < 16896 := by
  have hstart : cleanGlobals.blockOffset 0 = 512 := by decide
  have hstop : cleanGlobals.blockOffset cleanGlobals.superBlock.sBlocksCount = 16896 := by decide +kernel
  rw [Globals.Spans,hstart,hstop]

theorem clean_disk : ConsistentDisk cleanDisk cleanTable [] where
  disk := ⟨by decide,by decide +kernel,fun e he => by simp [cleanTable,ext2Fs,dosExtendedPartition] at he,fun _ => rfl⟩
  small e he := by
    rw [mem_clean he]
    decide +kernel
  layout e he := by
    rw [mem_clean he]
    exact clean_layout
  fits e he := by
    rw [mem_clean he]
    decide +kernel
  consistent e he := by
    rw [mem_clean he]
    exact clean_tree.consistent
  limits e he := by
    rw [mem_clean he]
    exact clean_within
  apart e he e' he' hne := absurd ((mem_clean he).trans (mem_clean he').symm) hne
  tables e he t ht k hk := by
    rw [mem_clean he]
    obtain rfl : t = 0 := by simpa [tableSectors,cleanTable,ext2Fs,dosExtendedPartition] using ht
    intro hin
    have := (clean_spans.mp hin).1
    simp only [sectorSizeBytes] at hk this
    omega

theorem damaged_disk : DamagedDisk cleanDisk cleanTable [] damagedDisk where
  size_eq := by simp [damagedDisk]
  outside k hk := by
    by_contra hne
    refine hk ⟨ext2Fs,1,32⟩ List.mem_cons_self (clean_spans.mpr ?_)
    have := damaged_byte hne
    omega
  inside e he := by
    rw [mem_clean he]
    have halone : grafted cleanGlobals.Spans damagedDisk cleanDisk = damagedDisk := by
      refine Buf.ext_byte (by simp [damagedDisk]) fun k _ => ?_
      by_cases hk : cleanGlobals.Spans k
      · exact grafted_in (by simp [damagedDisk]) hk
      · rw [grafted_out hk]
        by_contra hne
        have := damaged_byte (Ne.symm hne)
        exact hk (clean_spans.mpr (by omega))
    exact halone.symm ▸ damaged_clean

end MyFsck
