import MyFsck.PartitionLoop

/-! The chain of EBR sectors by its pointers, and when the walk of `read_ebr`, which looks for the next
sector right behind each partition, follows it. -/
namespace MyFsck

open ByteBuffer ErrorState

/-- A sector of the chain, and the logical partition that its first entry describes. -/
structure Link where
  sector : ℕ
  entry : PartitionEntry
  deriving DecidableEq

/-- Where the next sector of the chain is, or the end of the extended partition. -/
def nextStart (stop : ℕ) : List Link → ℕ
  | [] => stop
  | l::_ => l.sector

/-- Each partition lies behind its sector and ends in front of the next sector, or of the end. -/
def Standard (stop : ℕ) : List Link → Prop
  | [] => True
  | l::ls => (l.entry.type ≠ dosExtendedPartition ∧ l.entry.type ≠ 0 ∧ l.entry.type < 256) ∧
      l.sector < l.entry.start ∧ l.entry.start+l.entry.length ≤ nextStart stop ls ∧ Standard stop ls

/-- Each partition ends where the next sector is, and the last one at the end. -/
def NoGap (stop : ℕ) : List Link → Prop
  | [] => True
  | l::ls => l.entry.start+l.entry.length = nextStart stop ls ∧ NoGap stop ls

/-- The chain `ls` fits into the extended partition `base`. -/
structure ChainLayout (base : PartitionEntry) (ls : List Link) : Prop where
  type : base.type = dosExtendedPartition
  pos : 0 < base.start
  stop_lt : base.start+base.length < 2^32
  ne : ls ≠ []
  first : nextStart (base.start+base.length) ls = base.start
  standard : Standard (base.start+base.length) ls

/-- The second entry of a sector: its type, and the sector it points to in the extended partition. -/
def nextOf (img : Buf) (base : PartitionEntry) (s : ℕ) : ℕ × ℕ :=
  ((img.byte (s*sectorSizeBytes+firstPartitionOffset+partitionEntrySize+4)).toNat,
    u32 (base.start+num img.byte (s*sectorSizeBytes+firstPartitionOffset+partitionEntrySize+8) 4))

/-- The sectors of the chain are on the disk: each describes its partition, and points to the next one. -/
def Chained (img : Buf) (base : PartitionEntry) : List Link → Prop
  | [] => True
  | l::ls => entryOf img l.sector firstPartitionOffset = l.entry ∧
      (match ls with
        | [] => (nextOf img base l.sector).1 = 0
        | l'::_ => nextOf img base l.sector = (dosExtendedPartition,l'.sector)) ∧ Chained img base ls

def primaryEntries (img : Buf) : List PartitionEntry :=
  (List.range 4).map fun i => entryOf img 0 (firstPartitionOffset+partitionEntrySize*i)

/-- A disk with `base` as its only extended partition, which holds the chain `ls`. -/
structure ChainDisk (img : Buf) (base : PartitionEntry) (ls : List Link) : Prop where
  size : (base.start+base.length)*sectorSizeBytes ≤ img.size
  only : (primaryEntries img).filter (fun e => e.type = dosExtendedPartition) = [base]
  chained : Chained img base ls

/-- Number `5+k` gives the partition number `k` of the chain, and no partition behind its end. -/
def FollowsChain (stack : ℕ → Byte) (d : Device) (ls : List Link) : Prop :=
  ∃ n, ∀ fuel, n ≤ fuel → ∀ k old,
    ∃ r, (readPartitionInfo stack fuel old ((5+k:ℕ):ℤ)).run d = .ok r d ∧
      match (ls.map Link.entry)[k]? with
      | some e => r = e
      | none => r.type = invalidType

section Stretches

/-- The partitions of the chain with the gaps between them. -/
def stretches (stop : ℕ) : List Link → List Stretch
  | [] => []
  | l::ls =>
    if l.entry.start+l.entry.length = nextStart stop ls then .logical l.entry::stretches stop ls
    else .logical l.entry::.free (nextStart stop ls-(l.entry.start+l.entry.length))::stretches stop ls

/-- The first sector of each gap is zero. -/
def GapsZero (img : Buf) (stop : ℕ) : List Link → Prop
  | [] => True
  | l::ls => (l.entry.start+l.entry.length ≠ nextStart stop ls → ∀ k < sectorSizeBytes,
      img.byte ((l.entry.start+l.entry.length)*sectorSizeBytes+k) = 0) ∧ GapsZero img stop ls

variable {img : Buf} {base : PartitionEntry} {stop : ℕ} {ls : List Link}

theorem NoGap.gapsZero (h : NoGap stop ls) : GapsZero img stop ls := by
  induction ls with
  | nil => trivial
  | cons l ls ih => exact ⟨fun hne => absurd h.1 hne,ih h.2⟩

theorem NoGap.stretches (h : NoGap stop ls) : Stretch.hasFree (stretches stop ls) = false ∧
    Stretch.front (MyFsck.stretches stop ls) = ls.map Link.entry := by
  induction ls with
  | nil => exact ⟨rfl,rfl⟩
  | cons l ls ih =>
    obtain ⟨hfree,hfront⟩ := ih h.2
    rw [MyFsck.stretches,if_pos h.1]
    exact ⟨hfree,by rw [Stretch.front,hfront,List.map_cons]⟩

theorem hasFree_of_gap (h : ¬ NoGap stop ls) : Stretch.hasFree (stretches stop ls) = true := by
  induction ls with
  | nil => exact absurd trivial h
  | cons l ls ih =>
    rw [MyFsck.stretches]
    split
    · rename_i heq
      exact ih fun hno => h ⟨heq,hno⟩
    · rfl

theorem Standard.nextStart_le (h : Standard stop ls) : nextStart stop ls ≤ stop := by
  induction ls with
  | nil => exact le_rfl
  | cons l ls ih =>
    obtain ⟨-,h₁,h₂,h₃⟩ := h
    have hrest := ih h₃
    simp only [nextStart] at *
    omega

theorem Standard.laid (h : Standard stop ls) (hsize : stop*sectorSizeBytes ≤ img.size)
    (hc : Chained img base ls) (hz : GapsZero img stop ls) :
    Laid img stop (nextStart stop ls) (stretches stop ls) := by
  induction ls with
  | nil => exact .done
  | cons l ls ih =>
    obtain ⟨⟨htype,-,-⟩,hstart,hend,hrest⟩ := h
    have hlaid := ih hrest hc.2.2 hz.2
    have hle := hrest.nextStart_le
    have hin : ∀ s < stop, (s+1)*sectorSizeBytes ≤ img.size := fun s hs =>
      (Nat.mul_le_mul_right _ hs).trans hsize
    have hs : l.sector < stop := by omega
    rw [MyFsck.stretches,nextStart]
    split
    · rename_i heq
      exact .logical hs (hin _ hs) hc.1 htype (by omega) (by rw [heq]; exact hlaid)
    · rename_i hne
      refine .logical hs (hin _ hs) hc.1 htype (by omega) (.free (by omega) (hin _ (by omega)) (hz.1 hne) ?_)
      rw [Nat.add_sub_cancel' hend]
      exact hlaid

theorem ChainDisk.disk (h : ChainDisk img base ls) (hl : ChainLayout base ls)
    (hz : GapsZero img (base.start+base.length) ls) :
    Disk img (primaryEntries img) (stretches (base.start+base.length) ls) := by
  have hfind : (primaryEntries img).find? (fun e => e.type = dosExtendedPartition) = some base := by
    rw [← List.head?_filter,h.only]
    rfl
  refine ⟨?_,rfl,fun e he => ?_,fun hnone => ?_⟩
  · have hpos := hl.pos
    have hsize := h.size
    have hmul : 1*sectorSizeBytes ≤ (base.start+base.length)*sectorSizeBytes :=
      Nat.mul_le_mul_right _ (by omega)
    omega
  · rw [hfind] at he
    cases he
    have hlaid := hl.standard.laid h.size h.chained hz
    rw [hl.first] at hlaid
    exact ⟨hl.stop_lt,hlaid⟩
  · rw [hfind] at hnone
    cases hnone

end Stretches

section Follow

variable {stack : ℕ → Byte} {d : Device} {base : PartitionEntry} {ls : List Link}

theorem ChainDisk.follows (h : ChainDisk d.image base ls) (hl : ChainLayout base ls)
    (hno : NoGap (base.start+base.length) ls) : FollowsChain stack d ls := by
  have hdisk := h.disk hl hno.gapsZero
  obtain ⟨hfree,hfront⟩ := hno.stretches
  have hlen := hdisk.length_eq
  refine ⟨(ls.map Link.entry).length+1,fun fuel hfuel k old => ?_⟩
  have hnum : ((5+k:ℕ):ℤ) = ((4+k+1:ℕ):ℤ) := by omega
  rw [hnum]
  cases hk : (ls.map Link.entry)[k]? with
  | some e =>
    refine ⟨e,hdisk.info_run ?_ (by rw [hfront]; exact hfuel) old,rfl⟩
    rw [List.getElem?_append_right (by omega),hlen,Nat.add_sub_cancel_left,hfront]
    exact hk
  | none =>
    have hle := List.getElem?_eq_none_iff.mp hk
    exact hdisk.info_end hfree (by rw [List.length_append,hlen,hfront]; omega)
      (by rw [hfront]; exact hfuel) old

theorem ChainDisk.not_follows (h : ChainDisk d.image base ls) (hl : ChainLayout base ls)
    (hz : GapsZero d.image (base.start+base.length) ls) (hgap : ¬ NoGap (base.start+base.length) ls) :
    ¬ FollowsChain stack d ls := by
  rintro ⟨n,hall⟩
  have hdisk := h.disk hl hz
  have hlen := hdisk.length_eq
  obtain ⟨k,hk⟩ : ∃ k, k = (Stretch.front (stretches (base.start+base.length) ls)).length := ⟨_,rfl⟩
  obtain ⟨r,hr,hres⟩ := hall n le_rfl k ⟨0,0,0⟩
  have hnum : ((5+k:ℕ):ℤ) = ((4+k+1:ℕ):ℤ) := by omega
  rw [hnum] at hr
  have hzero : r.type = 0 := by
    rcases @Disk.info_free stack d _ _ hdisk (hasFree_of_gap hgap) (4+k)
      (by rw [List.length_append,hlen,hk]) n ⟨0,0,0⟩ with ⟨r',hr',ht⟩ | hr'
    · rw [hr] at hr'
      cases hr'
      exact ht
    · rw [hr] at hr'
      cases hr'
  have htypes : ∀ ls : List Link, Standard (base.start+base.length) ls → ∀ e ∈ ls.map Link.entry,
      e.type ≠ 0 := by
    intro ls hs
    induction ls with
    | nil => simp
    | cons l ls ih =>
      simp only [List.map_cons,List.mem_cons,forall_eq_or_imp]
      exact ⟨hs.1.2.1,ih hs.2.2.2⟩
  split at hres
  · rename_i e he
    rw [hres] at hzero
    exact htypes ls hl.standard e (List.mem_of_getElem? he) hzero
  · rw [hzero] at hres
    exact absurd hres (by decide)

end Follow

section Build

/-- The sector of a link: the entry, and the pointer to the rest of the chain. -/
def linkSector (base : PartitionEntry) (l : Link) (ls : List Link) : Buf :=
  (((((Buf.zero sectorSizeBytes).putNum 450 l.entry.type 1).putNum 454
    (l.entry.start-l.sector) 4).putNum 458 l.entry.length 4).putNum 466
      (if ls = [] then 0 else dosExtendedPartition) 1).putNum 470
        (nextStart base.start ls-base.start) 4

/-- The sectors of the extended partition: those of the chain, and zeros. -/
def chainSector (base : PartitionEntry) : List Link → ℕ → Buf
  | [], _ => Buf.zero sectorSizeBytes
  | l::ls, s => if s = l.sector then linkSector base l ls else chainSector base ls s

def mbrSector (base : PartitionEntry) : Buf :=
  (((Buf.zero sectorSizeBytes).putNum 450 base.type 1).putNum 454 base.start 4).putNum 458 base.length 4

def chainImage (base : PartitionEntry) (ls : List Link) : Buf :=
  Buf.ofFn ((base.start+base.length)*sectorSizeBytes) fun i =>
    (if i/sectorSizeBytes = 0 then mbrSector base else chainSector base ls (i/sectorSizeBytes)).byte
      (i%sectorSizeBytes)

variable {img b : Buf} {base : PartitionEntry} {stop s : ℕ} {ls : List Link}

/-- A sector of the image. -/
def SectorIs (img : Buf) (s : ℕ) (b : Buf) : Prop :=
  ∀ k < sectorSizeBytes, img.byte (s*sectorSizeBytes+k) = b.byte k

theorem SectorIs.num (h : SectorIs img s b) {p n : ℕ} (hp : p+n ≤ sectorSizeBytes) :
    num img.byte (s*sectorSizeBytes+p) n = num b.byte p n :=
  num_congr fun k hk => by rw [Nat.add_assoc,h _ (by omega)]

theorem num_one (f : ℕ → Byte) (p : ℕ) : num f p 1 = (f p).toNat := by simp [num]

theorem SectorIs.entryOf (h : SectorIs img s b) : entryOf img s firstPartitionOffset =
    ⟨ByteBuffer.num b.byte 450 1,u32 (s+ByteBuffer.num b.byte 454 4),ByteBuffer.num b.byte 458 4⟩ := by
  rw [MyFsck.entryOf,← num_one]
  simp only [Nat.add_assoc]
  rw [h.num (by decide),h.num (by decide),h.num (by decide)]
  rfl

theorem SectorIs.nextOf (h : SectorIs img s b) : nextOf img base s =
    (ByteBuffer.num b.byte 466 1,u32 (base.start+ByteBuffer.num b.byte 470 4)) := by
  rw [MyFsck.nextOf,← num_one]
  simp only [Nat.add_assoc]
  rw [h.num (by decide),h.num (by decide)]
  rfl

theorem linkSector_nums (l : Link) (ls : List Link) :
    num (linkSector base l ls).byte 450 1 = l.entry.type % 256 ∧
    num (linkSector base l ls).byte 454 4 = (l.entry.start-l.sector) % 2^32 ∧
    num (linkSector base l ls).byte 458 4 = l.entry.length % 2^32 ∧
    num (linkSector base l ls).byte 466 1 = (if ls = [] then 0 else dosExtendedPartition) % 256 ∧
    num (linkSector base l ls).byte 470 4 = (nextStart base.start ls-base.start) % 2^32 := by
  have hsize : sectorSizeBytes = 512 := rfl
  have hword : (256:ℕ)^4 = 2^32 := by norm_num
  unfold linkSector
  refine ⟨?_,?_,?_,?_,?_⟩
  · rw [Buf.num_putNum_disjoint (by omega),Buf.num_putNum_disjoint (by omega),
      Buf.num_putNum_disjoint (by omega),Buf.num_putNum_disjoint (by omega),
      Buf.num_putNum (by simp only [Buf.zero_size]; omega),pow_one]
  · rw [Buf.num_putNum_disjoint (by omega),Buf.num_putNum_disjoint (by omega),
      Buf.num_putNum_disjoint (by omega),
      Buf.num_putNum (by simp only [Buf.putNum_size,Buf.zero_size]; omega),hword]
  · rw [Buf.num_putNum_disjoint (by omega),Buf.num_putNum_disjoint (by omega),
      Buf.num_putNum (by simp only [Buf.putNum_size,Buf.zero_size]; omega),hword]
  · rw [Buf.num_putNum_disjoint (by omega),
      Buf.num_putNum (by simp only [Buf.putNum_size,Buf.zero_size]; omega),pow_one]
  · rw [Buf.num_putNum (by simp only [Buf.putNum_size,Buf.zero_size]; omega),hword]

theorem chainSector_before (h : Standard stop ls) (hs : s < nextStart stop ls) :
    chainSector base ls s = Buf.zero sectorSizeBytes := by
  induction ls with
  | nil => rfl
  | cons l ls ih =>
    obtain ⟨-,h₁,h₂,h₃⟩ := h
    rw [nextStart] at hs
    rw [chainSector,if_neg hs.ne,ih h₃ (by omega)]

theorem chained_of_sectors (h : Standard stop ls) (hstop : stop < 2^32)
    (hbase : base.start ≤ nextStart stop ls)
    (himg : ∀ s, nextStart stop ls ≤ s → s < stop → SectorIs img s (chainSector base ls s)) :
    Chained img base ls ∧ GapsZero img stop ls := by
  induction ls with
  | nil => exact ⟨trivial,trivial⟩
  | cons l ls ih =>
    obtain ⟨⟨-,-,htype⟩,h₁,h₂,h₃⟩ := h
    have hle := h₃.nextStart_le
    rw [nextStart] at hbase himg
    have hrest : ∀ s, l.sector < s → s < stop → SectorIs img s (chainSector base ls s) := by
      intro s hs hlt
      have hsec := himg s hs.le hlt
      rwa [chainSector,if_neg hs.ne'] at hsec
    obtain ⟨hc,hz⟩ := ih h₃ (by omega) fun s hs hlt => hrest s (by omega) hlt
    have hsec := himg l.sector le_rfl (by omega)
    rw [chainSector,if_pos rfl] at hsec
    obtain ⟨n₁,n₂,n₃,n₄,n₅⟩ := @linkSector_nums base l ls
    refine ⟨⟨?_,?_,hc⟩,fun hne k hk => ?_,hz⟩
    · rw [hsec.entryOf,n₁,n₂,n₃,Nat.mod_eq_of_lt htype,Nat.mod_eq_of_lt (by omega),
        Nat.mod_eq_of_lt (by omega),Nat.add_sub_cancel' h₁.le,u32_eq (by omega)]
    · rw [hsec.nextOf,n₄,n₅]
      cases ls with
      | nil => rfl
      | cons l' ls =>
        simp only [nextStart] at *
        rw [if_neg (List.cons_ne_nil _ _),Nat.mod_eq_of_lt (show l'.sector-base.start < 2^32 by omega),
          Nat.add_sub_cancel' (by omega),u32_eq (by omega)]
        rfl
    · have hgap := hrest (l.entry.start+l.entry.length) (by omega) (by omega) k hk
      rw [hgap,chainSector_before h₃ (by omega),Buf.zero_byte]

theorem chainImage_sector (hs : s < base.start+base.length) : SectorIs (chainImage base ls) s
    (if s = 0 then mbrSector base else chainSector base ls s) := by
  intro k hk
  have hdiv : (s*sectorSizeBytes+k)/sectorSizeBytes = s := by
    rw [Nat.mul_comm,Nat.mul_add_div (by decide),Nat.div_eq_of_lt hk,Nat.add_zero]
  have hmod : (s*sectorSizeBytes+k)%sectorSizeBytes = k := by
    rw [Nat.mul_comm,Nat.mul_add_mod,Nat.mod_eq_of_lt hk]
  have hlt : s*sectorSizeBytes+k < (base.start+base.length)*sectorSizeBytes := by
    have hmul : (s+1)*sectorSizeBytes ≤ (base.start+base.length)*sectorSizeBytes :=
      Nat.mul_le_mul_right _ hs
    rw [Nat.succ_mul] at hmul
    omega
  rw [chainImage,Buf.ofFn_byte_lt _ hlt,hdiv,hmod]

theorem primaryEntries_mbr (h : SectorIs img 0 (mbrSector base)) (htype : base.type = dosExtendedPartition)
    (hstop : base.start+base.length < 2^32) :
    (primaryEntries img).filter (fun e => e.type = dosExtendedPartition) = [base] := by
  have hsize : sectorSizeBytes = 512 := rfl
  have hword : (256:ℕ)^4 = 2^32 := by norm_num
  have hfirst : entryOf img 0 (firstPartitionOffset+partitionEntrySize*0) = base := by
    have hentry := h.entryOf
    have n₁ : num (mbrSector base).byte 450 1 = base.type % 256 := by
      unfold mbrSector
      rw [Buf.num_putNum_disjoint (by omega),Buf.num_putNum_disjoint (by omega),
        Buf.num_putNum (by simp only [Buf.zero_size]; omega),pow_one]
    have n₂ : num (mbrSector base).byte 454 4 = base.start % 2^32 := by
      unfold mbrSector
      rw [Buf.num_putNum_disjoint (by omega),
        Buf.num_putNum (by simp only [Buf.putNum_size,Buf.zero_size]; omega),hword]
    have n₃ : num (mbrSector base).byte 458 4 = base.length % 2^32 := by
      unfold mbrSector
      rw [Buf.num_putNum (by simp only [Buf.putNum_size,Buf.zero_size]; omega),hword]
    rw [n₁,n₂,n₃,Nat.mod_eq_of_lt (show base.type < 256 by rw [htype]; decide),
      Nat.mod_eq_of_lt (by omega),Nat.mod_eq_of_lt (by omega),Nat.zero_add,u32_eq (by omega)] at hentry
    exact hentry
  have hother : ∀ i, 1 ≤ i → i < 4 →
      ¬ (entryOf img 0 (firstPartitionOffset+partitionEntrySize*i)).type = dosExtendedPartition := by
    intro i h1 h4
    have hoff : firstPartitionOffset+partitionEntrySize*i+4 = 450+16*i := by
      simp only [firstPartitionOffset,partitionEntrySize]
      omega
    have hbyte : img.byte (0*sectorSizeBytes+(450+16*i)) = 0 := by
      rw [h _ (by omega)]
      unfold mbrSector
      rw [Buf.putNum_byte_out (by omega),Buf.putNum_byte_out (by omega),
        Buf.putNum_byte_out (by omega),Buf.zero_byte]
    rw [entryOf]
    simp only [Nat.add_assoc] at hoff ⊢
    rw [hoff,hbyte]
    decide
  have hrest : ([1,2,3].map fun i => entryOf img 0 (firstPartitionOffset+partitionEntrySize*i)).filter
      (fun e => e.type = dosExtendedPartition) = [] := by
    refine List.filter_eq_nil_iff.mpr fun e he => ?_
    obtain ⟨i,hi,rfl⟩ := List.mem_map.mp he
    have hi' : 1 ≤ i ∧ i < 4 := by
      simp only [List.mem_cons,List.not_mem_nil,or_false] at hi
      omega
    simpa using hother i hi'.1 hi'.2
  rw [primaryEntries,show List.range 4 = 0::[1,2,3] from rfl,List.map_cons,hfirst,
    List.filter_cons_of_pos (by simpa using htype),hrest]

theorem ChainLayout.chainDisk (hl : ChainLayout base ls) : ChainDisk (chainImage base ls) base ls ∧
    GapsZero (chainImage base ls) (base.start+base.length) ls := by
  have hpos := hl.pos
  have hstop := hl.stop_lt
  obtain ⟨hc,hz⟩ := @chained_of_sectors (chainImage base ls) base (base.start+base.length) ls hl.standard
    hl.stop_lt hl.first.ge fun s hle hlt => by
      have hsec := @chainImage_sector base s ls hlt
      rw [hl.first] at hle
      rwa [if_neg (by omega)] at hsec
  have hmbr := @chainImage_sector base 0 ls (by omega)
  rw [if_pos rfl] at hmbr
  exact ⟨⟨le_rfl,primaryEntries_mbr hmbr hl.type hstop,hc⟩,hz⟩

end Build

/-- On every disk with this chain, and whatever else on it, each number gives its partition, if and
only if there is no gap in the chain. -/
theorem readPartitionInfo_follows_iff (stack : ℕ → Byte) {base : PartitionEntry} {ls : List Link}
    (hl : ChainLayout base ls) :
    (∀ d : Device, ChainDisk d.image base ls → FollowsChain stack d ls) ↔
      NoGap (base.start+base.length) ls := by
  constructor
  · intro hall
    by_contra hgap
    obtain ⟨hdisk,hz⟩ := hl.chainDisk
    exact @ChainDisk.not_follows stack ⟨chainImage base ls,[]⟩ base ls hdisk hl hz hgap (hall _ hdisk)
  · exact fun hno d hdisk => hdisk.follows hl hno

/-- A chain of two partitions in sectors 1 to 8, with a free sector between them. -/
def gapChain : List Link := [⟨1,⟨0x82,2,2⟩⟩,⟨5,⟨0x83,6,3⟩⟩]

theorem gapChain_layout : ChainLayout ⟨5,1,8⟩ gapChain where
  type := rfl
  pos := by decide
  stop_lt := by decide
  ne := by decide
  first := rfl
  standard := ⟨by decide,by decide,by decide,by decide,by decide,by decide,trivial⟩

theorem readPartitionInfo_follows_iff_gapChain :
    (∀ d : Device, ChainDisk d.image ⟨5,1,8⟩ gapChain → FollowsChain (fun _ => 0) d gapChain) ↔
      NoGap (1+8) gapChain :=
  readPartitionInfo_follows_iff (fun _ => 0) gapChain_layout

/-- On this disk number 6 gives an empty partition, not the second one of the chain. -/
theorem readPartitionInfo_gap : ∃ d : Device, ChainLayout ⟨5,1,8⟩ gapChain ∧
    ChainDisk d.image ⟨5,1,8⟩ gapChain ∧
    (∃ r d', (readPartitionInfo (fun _ => 0) 9 ⟨0,0,0⟩ 6).run d = .ok r d' ∧ r = ⟨0,4,0⟩) ∧
    ¬ FollowsChain (fun _ => 0) d gapChain := by
  obtain ⟨hdisk,hz⟩ := gapChain_layout.chainDisk
  obtain ⟨r,d',hrun,hr⟩ := exists_of_endsIn (show endsIn (readPartitionInfo (fun _ => 0) 9 ⟨0,0,0⟩ 6)
    ⟨chainImage ⟨5,1,8⟩ gapChain,[]⟩ (fun r _ => decide (r = ⟨0,4,0⟩)) = true by decide +kernel)
  exact ⟨⟨chainImage ⟨5,1,8⟩ gapChain,[]⟩,gapChain_layout,hdisk,⟨r,d',hrun,of_decide_eq_true hr⟩,
    hdisk.not_follows gapChain_layout hz (by simp [NoGap,gapChain,nextStart])⟩

end MyFsck
