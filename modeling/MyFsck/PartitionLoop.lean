import MyFsck.Pass1

/-! The loop of `correct_partition` over the partitions of a disk (`correct.c`). -/
namespace MyFsck

open ByteBuffer ErrorState

/-- The partition as a list, if the passes were run on it: the call then ends without a `return`. -/
def passesRunOn (result : Option ℤ) (partition_entry : PartitionEntry) : List PartitionEntry :=
  if result.isNone then [partition_entry] else []

/-- The loop for partition number 0, from number `i` on. `left i` is what stands for the value of the
call for number `i` where it returns none. The result lists the partitions the passes were run on. -/
def correctAll (stack : ℕ → Byte) (fuel : ℕ) (left : ℤ → ℤ) :
    (turns : ℕ) → (i : ℤ) → (old : PartitionEntry) → Fsck (List PartitionEntry)
  | 0, _, _ => throw .outOfFuel
  | turns+1, i, old => do
    let (result,partition_entry) ← correctOnePartition stack fuel old i
    if result.getD (left i) = -1 then pure (passesRunOn result partition_entry)
    else do
      let rest ← correctAll stack fuel left turns (i+1) partition_entry
      pure (passesRunOn result partition_entry ++ rest)

def correctPartition (stack : ℕ → Byte) (fuel : ℕ) (left : ℤ → ℤ) (turns : ℕ) (old : PartitionEntry)
    (partition_num : ℤ) : Fsck (List PartitionEntry) :=
  if partition_num = 0 then correctAll stack fuel left turns 1 old
  else do
    let (result,partition_entry) ← correctOnePartition stack fuel old partition_num
    pure (passesRunOn result partition_entry)

/-- The partition entry at `offset` in sector `s`. -/
def entryOf (img : Buf) (s offset : ℕ) : PartitionEntry :=
  ⟨(img.byte (s*sectorSizeBytes+offset+4)).toNat,
    u32 (s+num img.byte (s*sectorSizeBytes+offset+8) 4),num img.byte (s*sectorSizeBytes+offset+12) 4⟩

/-- What a stretch of an extended partition is used for: a logical partition, with the sector in
front of it that describes it, or nothing. -/
inductive Stretch
  | logical (entry : PartitionEntry)
  | free (sectors : ℕ)

/-- From sector `s` up to sector `stop` the extended partition is made of these stretches. A logical
partition is described by the first entry of its first sector; the first of the free sectors is zero. -/
inductive Laid (img : Buf) (stop : ℕ) : ℕ → List Stretch → Prop
  | done : Laid img stop stop []
  | logical {s : ℕ} {e : PartitionEntry} {ss : List Stretch} : s < stop →
      (s+1)*sectorSizeBytes ≤ img.size → entryOf img s firstPartitionOffset = e →
      e.type ≠ dosExtendedPartition → s < e.start+e.length → Laid img stop (e.start+e.length) ss →
      Laid img stop s (.logical e::ss)
  | free {s n : ℕ} {ss : List Stretch} : 0 < n → (s+1)*sectorSizeBytes ≤ img.size →
      (∀ k < sectorSizeBytes, img.byte (s*sectorSizeBytes+k) = 0) →
      Laid img stop (s+n) ss → Laid img stop s (.free n::ss)

/-- The partition tables of a disk: the four primary partitions, and the stretches of the first one
that is extended. -/
structure Disk (img : Buf) (primaries : List PartitionEntry) (ss : List Stretch) : Prop where
  mbr_in : sectorSizeBytes ≤ img.size
  primaries_eq : primaries = (List.range 4).map fun i =>
    entryOf img 0 (firstPartitionOffset+partitionEntrySize*i)
  extended : ∀ e, primaries.find? (fun e => e.type = dosExtendedPartition) = some e →
    e.start+e.length < 2^32 ∧ Laid img (e.start+e.length) e.start ss
  none_extended : primaries.find? (fun e => e.type = dosExtendedPartition) = none → ss = []

namespace Stretch

/-- The logical partitions in front of the first free stretch. -/
def front : List Stretch → List PartitionEntry
  | .logical e::ss => e::front ss
  | _ => []

def partitions : List Stretch → List PartitionEntry
  | [] => []
  | .logical e::ss => e::partitions ss
  | .free _::ss => partitions ss

/-- Some stretch is free. -/
def hasFree : List Stretch → Bool
  | [] => false
  | .logical _::ss => hasFree ss
  | .free _::_ => true

end Stretch

theorem Laid.le_stop {img : Buf} {stop s : ℕ} {ss : List Stretch} (h : Laid img stop s ss) :
    s ≤ stop := by
  induction h with
  | done => exact le_rfl
  | logical hs _ _ _ _ _ _ => exact hs.le
  | free _ _ _ _ ih => omega

section Read

variable {stack : ℕ → Byte} {d : Device} {s : ℕ}

theorem readSectors_run (h : (s+1)*sectorSizeBytes ≤ d.image.size) :
    (readSectors s 1).run d = .ok (d.image.slice (s*sectorSizeBytes) sectorSizeBytes) d := by
  unfold readSectors
  rw [bind_ok (EStateM.run_get d),Nat.mul_one,Buf.window_eq (by rw [← Nat.succ_mul]; exact h)]
  rfl

theorem readPartitionEntry_sector {offset : ℕ} (h : offset+16 ≤ sectorSizeBytes) (img : Buf) (s : ℕ) :
    readPartitionEntry (sectorMemory (img.slice (s*sectorSizeBytes) sectorSizeBytes) stack) s offset =
      entryOf img s offset := by
  have hbyte : ∀ k < sectorSizeBytes, sectorMemory (img.slice (s*sectorSizeBytes) sectorSizeBytes) stack k =
      img.byte (s*sectorSizeBytes+k) := fun k hk => by
    rw [sectorMemory,if_pos hk,Buf.slice_byte _ hk]
  have hnum : ∀ p, p+4 ≤ sectorSizeBytes →
      num (sectorMemory (img.slice (s*sectorSizeBytes) sectorSizeBytes) stack) p 4 =
        num img.byte (s*sectorSizeBytes+p) 4 := fun p hp => num_congr fun k hk => by
    rw [hbyte _ (by omega),Nat.add_assoc]
  rw [readPartitionEntry_eq _ _ (by omega),show ((offset:ℤ)+4).toNat = offset+4 by omega,
    show ((offset:ℤ)+8).toNat = offset+8 by omega,show ((offset:ℤ)+12).toNat = offset+12 by omega,
    hbyte _ (by omega),hnum _ (by omega),hnum _ (by omega)]
  simp only [entryOf,Nat.add_assoc]

theorem readEbr_step {fuel stop k : ℕ} {last : PartitionEntry} (hs : s < stop) (hstop : stop < 2^32)
    (hin : (s+1)*sectorSizeBytes ≤ d.image.size) {e : PartitionEntry}
    (he : entryOf d.image s firstPartitionOffset = e) (ht : e.type ≠ dosExtendedPartition)
    (hle : e.start+e.length ≤ stop) :
    (readEbr stack (fuel+1) s stop (4+((k+1:ℕ):ℤ)) last).run d =
      (readEbr stack fuel (e.start+e.length) stop (4+(k:ℤ)) e).run d := by
  have hk : 4+((k+1:ℕ):ℤ)-1 = 4+(k:ℤ) := by omega
  rw [readEbr,if_neg (by omega),if_neg (by omega),bind_ok (readSectors_run hin),
    readPartitionEntry_sector (by decide),he]
  dsimp only
  rw [u32_eq (by omega),if_neg (by omega),if_neg ht,hk]

theorem readEbr_found {fuel stop : ℕ} {last : PartitionEntry} :
    (readEbr stack (fuel+1) s stop (4+((0:ℕ):ℤ)) last).run d = .ok last d := by
  rw [readEbr,if_pos (by simp)]
  rfl

theorem entryOf_zero {img : Buf} (hs : s < 2^32)
    (h : ∀ k < sectorSizeBytes, img.byte (s*sectorSizeBytes+k) = 0) :
    entryOf img s firstPartitionOffset = ⟨0,s,0⟩ := by
  have hnum : ∀ p, p+4 ≤ sectorSizeBytes → num img.byte (s*sectorSizeBytes+p) 4 = 0 := fun p hp => by
    simp only [num,Nat.add_assoc]
    rw [h _ (by omega),h _ (by omega),h _ (by omega),h _ (by omega)]
    rfl
  unfold entryOf
  simp only [Nat.add_assoc]
  rw [h _ (by decide),hnum _ (by decide),hnum _ (by decide),Nat.add_zero,u32_eq hs]
  rfl

open Stretch in
theorem readEbr_front {stop : ℕ} (hstop : stop < 2^32) {ss : List Stretch}
    (h : Laid d.image stop s ss) {j fuel : ℕ} {e last : PartitionEntry} (hj : (front ss)[j]? = some e)
    (hfuel : j+2 ≤ fuel) : (readEbr stack fuel s stop (4+((j+1:ℕ):ℤ)) last).run d = .ok e d := by
  induction h generalizing j fuel last with
  | done => simp [front] at hj
  | @logical s e' ss hs hin he ht _ hrest ih =>
    obtain ⟨fuel,rfl⟩ : ∃ m, fuel = m+1 := ⟨fuel-1,by omega⟩
    rw [readEbr_step hs hstop hin he ht hrest.le_stop]
    cases j with
    | zero =>
      obtain rfl : e' = e := by simpa [front] using hj
      obtain ⟨fuel,rfl⟩ : ∃ m, fuel = m+1 := ⟨fuel-1,by omega⟩
      exact readEbr_found
    | succ j => exact ih (by simpa [front] using hj) (by omega)
  | free _ _ _ _ _ => simp [front] at hj

open Stretch in
theorem readEbr_end {stop : ℕ} (hstop : stop < 2^32) {ss : List Stretch}
    (h : Laid d.image stop s ss) (hno : hasFree ss = false) {k fuel : ℕ} {last : PartitionEntry}
    (hk : (front ss).length ≤ k) (hfuel : (front ss).length+1 ≤ fuel) :
    ∃ r, (readEbr stack fuel s stop (4+((k+1:ℕ):ℤ)) last).run d = .ok r d ∧ r.type = invalidType := by
  induction h generalizing k fuel last with
  | done =>
    obtain ⟨fuel,rfl⟩ : ∃ m, fuel = m+1 := ⟨fuel-1,by omega⟩
    refine ⟨{ last with type := invalidType },?_,rfl⟩
    rw [readEbr,if_neg (by omega),if_pos le_rfl]
    rfl
  | @logical s e ss hs hin he ht _ hrest ih =>
    obtain ⟨fuel,rfl⟩ : ∃ m, fuel = m+1 := ⟨fuel-1,by omega⟩
    simp only [front,List.length_cons] at hk hfuel
    obtain ⟨k,rfl⟩ : ∃ m, k = m+1 := ⟨k-1,by omega⟩
    rw [readEbr_step hs hstop hin he ht hrest.le_stop]
    exact ih (by simpa [hasFree] using hno) (by omega) (by omega)
  | free _ _ _ _ _ => simp [hasFree] at hno

theorem readEbr_zeros {stop : ℕ} (hs : s < stop) (hstop : stop < 2^32)
    (hin : (s+1)*sectorSizeBytes ≤ d.image.size)
    (hzero : ∀ k < sectorSizeBytes, d.image.byte (s*sectorSizeBytes+k) = 0) (k fuel : ℕ)
    {last : PartitionEntry} (hlast : last.type = 0) :
    (∃ r, (readEbr stack fuel s stop (4+(k:ℤ)) last).run d = .ok r d ∧ r.type = 0) ∨
      (readEbr stack fuel s stop (4+(k:ℤ)) last).run d = .error .outOfFuel d := by
  induction fuel generalizing k last with
  | zero => exact Or.inr rfl
  | succ fuel ih =>
    cases k with
    | zero => exact Or.inl ⟨last,readEbr_found,hlast⟩
    | succ k =>
      rw [readEbr_step hs hstop hin (entryOf_zero (by omega) hzero)
        (show (0:ℕ) ≠ dosExtendedPartition by decide) (by simpa using hs.le)]
      exact ih k rfl

open Stretch in
theorem readEbr_free {stop : ℕ} (hstop : stop < 2^32) {ss : List Stretch}
    (h : Laid d.image stop s ss) (hfree : hasFree ss = true) {k : ℕ} (fuel : ℕ) {last : PartitionEntry}
    (hk : (front ss).length ≤ k) :
    (∃ r, (readEbr stack fuel s stop (4+((k+1:ℕ):ℤ)) last).run d = .ok r d ∧ r.type = 0) ∨
      (readEbr stack fuel s stop (4+((k+1:ℕ):ℤ)) last).run d = .error .outOfFuel d := by
  induction h generalizing k fuel last with
  | done => simp [hasFree] at hfree
  | @logical s e ss hs hin he ht _ hrest ih =>
    cases fuel with
    | zero => exact Or.inr rfl
    | succ fuel =>
      simp only [front,List.length_cons] at hk
      obtain ⟨k,rfl⟩ : ∃ m, k = m+1 := ⟨k-1,by omega⟩
      rw [readEbr_step hs hstop hin he ht hrest.le_stop]
      exact ih (by simpa [hasFree] using hfree) fuel (by omega)
  | free hn hin hzero hrest _ =>
    have hs := hrest.le_stop
    cases fuel with
    | zero => exact Or.inr rfl
    | succ fuel =>
      rw [readEbr_step (by omega) hstop hin (entryOf_zero (by omega) hzero)
        (show (0:ℕ) ≠ dosExtendedPartition by decide) (by simp only; omega)]
      exact readEbr_zeros (by omega) hstop hin hzero k fuel rfl

theorem readMbr_run (img : Buf) {i : ℕ} (hi : i < 4) :
    (readMbr stack (img.slice 0 sectorSizeBytes) ((i+1:ℕ):ℤ)).run d =
      .ok (entryOf img 0 (firstPartitionOffset+partitionEntrySize*i)) d := by
  have hoff : (firstPartitionOffset:ℤ)+(partitionEntrySize:ℤ)*(((i+1:ℕ):ℤ)-1) =
      ((firstPartitionOffset+partitionEntrySize*i:ℕ):ℤ) := by
    push_cast
    ring
  have hentry := @readPartitionEntry_sector stack (firstPartitionOffset+partitionEntrySize*i)
    (by simp only [firstPartitionOffset,partitionEntrySize,sectorSizeBytes]; omega) img 0
  rw [Nat.zero_mul] at hentry
  rw [readMbr,hoff,if_pos (by omega),hentry]
  rfl

theorem readPartitionInfo_one (h : sectorSizeBytes ≤ d.image.size) (fuel : ℕ) (old : PartitionEntry) :
    (readPartitionInfo stack fuel old 1).run d = .ok (entryOf d.image 0 firstPartitionOffset) d := by
  have hmbr := readSectors_run (s := 0) (d := d) (by omega)
  rw [Nat.zero_mul] at hmbr
  rw [readPartitionInfo,bind_ok hmbr,if_pos (by decide)]
  exact readMbr_run (i := 0) _ (by decide)

variable {primaries : List PartitionEntry} {ss : List Stretch}

theorem Disk.length_eq (h : Disk d.image primaries ss) : primaries.length = 4 := by
  simp [h.primaries_eq]

theorem Disk.getElem (h : Disk d.image primaries ss) {i : ℕ} (hi : i < 4) : primaries[i]? =
    some (entryOf d.image 0 (firstPartitionOffset+partitionEntrySize*i)) := by
  rw [h.primaries_eq,List.getElem?_map,List.getElem?_range hi]
  rfl

theorem Disk.mbr_run (h : Disk d.image primaries ss) :
    (readSectors 0 1).run d = .ok (d.image.slice 0 sectorSizeBytes) d := by
  have hin := h.mbr_in
  have hrun := readSectors_run (d := d) (s := 0) (by omega)
  rwa [Nat.zero_mul] at hrun

theorem Disk.findExtended_run (h : Disk d.image primaries ss) :
    (findExtended stack (d.image.slice 0 sectorSizeBytes) [1,2,3,4]).run d =
      .ok (primaries.find? fun e => e.type = dosExtendedPartition) d := by
  have key : ∀ (n i : ℕ), i+n = 4 → (findExtended stack (d.image.slice 0 sectorSizeBytes)
      ((List.range' i n).map fun k => ((k+1:ℕ):ℤ))).run d = .ok (((List.range' i n).map fun k =>
        entryOf d.image 0 (firstPartitionOffset+partitionEntrySize*k)).find?
          fun e => e.type = dosExtendedPartition) d := by
    intro n
    induction n with
    | zero => exact fun i _ => rfl
    | succ n ih =>
      intro i hi
      rw [List.range'_succ,List.map_cons,List.map_cons,findExtended,
        bind_ok (readMbr_run d.image (by omega)),List.find?_cons]
      by_cases ht : (entryOf d.image 0 (firstPartitionOffset+partitionEntrySize*i)).type =
          dosExtendedPartition
      · rw [if_pos ht]
        simp only [ht,decide_true]
        rfl
      · rw [if_neg ht]
        simp only [ht,decide_false]
        exact ih (i+1) (by omega)
  have hall := key 4 0 rfl
  rw [← List.range_eq_range',← h.primaries_eq] at hall
  exact hall

theorem Disk.info_primary (h : Disk d.image primaries ss) {j : ℕ} (hj : j < 4) (fuel : ℕ)
    (old : PartitionEntry) : ∃ e, primaries[j]? = some e ∧
      (readPartitionInfo stack fuel old ((j+1:ℕ):ℤ)).run d = .ok e d := by
  refine ⟨_,h.getElem hj,?_⟩
  rw [readPartitionInfo,bind_ok h.mbr_run,if_pos (by omega)]
  exact readMbr_run d.image hj

theorem Disk.info_extended (h : Disk d.image primaries ss) (k fuel : ℕ) (old : PartitionEntry) :
    (readPartitionInfo stack fuel old ((4+k+1:ℕ):ℤ)).run d =
      match primaries.find? fun e => e.type = dosExtendedPartition with
      | none => .ok { old with type := invalidType } d
      | some base => (readEbr stack fuel base.start (base.start+base.length) (4+((k+1:ℕ):ℤ)) base).run d := by
  rw [readPartitionInfo,bind_ok h.mbr_run,if_neg (by omega),bind_ok h.findExtended_run]
  cases hfind : primaries.find? fun e => e.type = dosExtendedPartition with
  | none => rfl
  | some base =>
    dsimp only
    rw [u32_eq (h.extended base hfind).1]
    congr 2

open Stretch in
theorem Disk.info_run (h : Disk d.image primaries ss) {j fuel : ℕ} {e : PartitionEntry}
    (hj : (primaries ++ front ss)[j]? = some e) (hfuel : (front ss).length+1 ≤ fuel)
    (old : PartitionEntry) : (readPartitionInfo stack fuel old ((j+1:ℕ):ℤ)).run d = .ok e d := by
  have hlen := h.length_eq
  by_cases h4 : j < 4
  · obtain ⟨e',he',hr⟩ := @Disk.info_primary stack d _ _ h _ h4 fuel old
    rw [List.getElem?_append_left (by omega),he'] at hj
    cases hj
    exact hr
  · obtain ⟨k,rfl⟩ : ∃ k, j = 4+k := ⟨j-4,by omega⟩
    rw [List.getElem?_append_right (by omega),hlen,Nat.add_sub_cancel_left] at hj
    have hk : k < (front ss).length := (List.getElem?_eq_some_iff.mp hj).1
    rw [h.info_extended]
    cases hfind : primaries.find? fun e => e.type = dosExtendedPartition with
    | none =>
      rw [h.none_extended hfind] at hj
      simp [front] at hj
    | some base =>
      obtain ⟨hstop,hlaid⟩ := h.extended base hfind
      exact readEbr_front hstop hlaid hj (by omega)

open Stretch in
theorem Disk.info_end (h : Disk d.image primaries ss) (hno : hasFree ss = false) {j fuel : ℕ}
    (hj : (primaries ++ front ss).length ≤ j) (hfuel : (front ss).length+1 ≤ fuel)
    (old : PartitionEntry) : ∃ r, (readPartitionInfo stack fuel old ((j+1:ℕ):ℤ)).run d = .ok r d ∧
      r.type = invalidType := by
  have hlen := h.length_eq
  rw [List.length_append,hlen] at hj
  obtain ⟨k,rfl⟩ : ∃ k, j = 4+k := ⟨j-4,by omega⟩
  rw [h.info_extended]
  cases hfind : primaries.find? fun e => e.type = dosExtendedPartition with
  | none => exact ⟨_,rfl,rfl⟩
  | some base =>
    obtain ⟨hstop,hlaid⟩ := h.extended base hfind
    exact readEbr_end hstop hlaid hno (by omega) hfuel

open Stretch in
theorem Disk.info_free (h : Disk d.image primaries ss) (hfree : hasFree ss = true) {j : ℕ}
    (hj : (primaries ++ front ss).length ≤ j) (fuel : ℕ) (old : PartitionEntry) :
    (∃ r, (readPartitionInfo stack fuel old ((j+1:ℕ):ℤ)).run d = .ok r d ∧ r.type = 0) ∨
      (readPartitionInfo stack fuel old ((j+1:ℕ):ℤ)).run d = .error .outOfFuel d := by
  have hlen := h.length_eq
  rw [List.length_append,hlen] at hj
  obtain ⟨k,rfl⟩ : ∃ k, j = 4+k := ⟨j-4,by omega⟩
  rw [h.info_extended]
  cases hfind : primaries.find? fun e => e.type = dosExtendedPartition with
  | none =>
    rw [h.none_extended hfind] at hfree
    cases hfree
  | some base =>
    obtain ⟨hstop,hlaid⟩ := h.extended base hfind
    exact readEbr_free hstop hlaid hfree fuel (by omega)

end Read

/-- The ext2 partitions of a list. -/
def ext2Of (es : List PartitionEntry) : List PartitionEntry := es.filter fun e => e.type = ext2Fs

/-- The partitions the loop runs the passes on while it goes through `es`, the first of which has
number `j+1`; `none` if it does not stop there. -/
def treated (left : ℤ → ℤ) : ℕ → List PartitionEntry → Option (List PartitionEntry)
  | _, [] => none
  | j, e::es =>
    if e.type = invalidType then some []
    else if e.type = ext2Fs then
      if left ((j+1:ℕ):ℤ) = -1 then some [e] else (treated left (j+1) es).map (e :: ·)
    else treated left (j+1) es

section Loop

open Stretch

variable {stack : ℕ → Byte} {fuel : ℕ} {primaries : List PartitionEntry} {ss : List Stretch}
  {I : Device → Prop}

/-- While `I` holds the partition tables are those of the disk, and the passes on each of its ext2
partitions end and keep `I`. -/
structure PassesEnd (fuel : ℕ) (primaries : List PartitionEntry) (ss : List Stretch)
    (I : Device → Prop) : Prop where
  disk : ∀ d, I d → Disk d.image primaries ss
  passes : ∀ e ∈ primaries ++ front ss, e.type = ext2Fs → ∀ d, I d →
    ∃ d', (loadGlobals e >>= fun g => passes g fuel).run d = .ok () d' ∧ I d'

theorem correctOne_invalid {d : Device} {i : ℤ} {e old : PartitionEntry}
    (h : (readPartitionInfo stack fuel old i).run d = .ok e d) (ht : e.type = invalidType) :
    (correctOnePartition stack fuel old i).run d = .ok (some (-1),e) d := by
  rw [correctOnePartition,bind_ok h,if_pos ht]
  rfl

theorem correctOne_other {d : Device} {i : ℤ} {e old : PartitionEntry}
    (h : (readPartitionInfo stack fuel old i).run d = .ok e d) (ht : e.type ≠ invalidType)
    (ht' : e.type ≠ ext2Fs) : (correctOnePartition stack fuel old i).run d = .ok (some 0,e) d := by
  rw [correctOnePartition,bind_ok h,if_neg ht,if_pos ht']
  rfl

theorem correctOne_ext2 {d d' : Device} {i : ℤ} {e old : PartitionEntry}
    (h : (readPartitionInfo stack fuel old i).run d = .ok e d) (ht : e.type = ext2Fs)
    (hpass : (loadGlobals e >>= fun g => passes g fuel).run d = .ok () d') :
    (correctOnePartition stack fuel old i).run d = .ok (none,e) d' := by
  rw [correctOnePartition,bind_ok h,if_neg (by rw [ht]; decide),if_neg (by rw [ht]; simp)]
  obtain ⟨g,d₁,hload,hrun⟩ := bind_ok_inv hpass
  rw [bind_ok hload,bind_ok hrun]
  rfl

theorem PassesEnd.turn (h : PassesEnd fuel primaries ss I) (hfuel : (front ss).length+1 ≤ fuel)
    {j : ℕ} {e : PartitionEntry} {es : List PartitionEntry} (hj : (primaries ++ front ss).drop j = e::es)
    (left : ℤ → ℤ) {d : Device} (hd : I d) (old : PartitionEntry) (turns : ℕ) :
    ∃ d', I d' ∧ (correctAll stack fuel left (turns+1) ((j+1:ℕ):ℤ) old).run d =
      if e.type = invalidType then .ok [] d'
      else if e.type = ext2Fs then
        if left ((j+1:ℕ):ℤ) = -1 then .ok [e] d'
        else ((correctAll stack fuel left turns ((j+1+1:ℕ):ℤ) e) >>= fun rest => pure (e::rest)).run d'
      else (correctAll stack fuel left turns ((j+1+1:ℕ):ℤ) e).run d' := by
  have hget : (primaries ++ front ss)[j]? = some e := by
    have hdrop := congrArg (fun l => l[0]?) hj
    simpa [List.getElem?_drop] using hdrop
  have hread : (readPartitionInfo stack fuel old ((j+1:ℕ):ℤ)).run d = .ok e d :=
    (h.disk _ hd).info_run hget hfuel old
  have hnext : ((j+1:ℕ):ℤ)+1 = ((j+1+1:ℕ):ℤ) := by push_cast; ring
  by_cases ht : e.type = invalidType
  · refine ⟨d,hd,?_⟩
    rw [correctAll,bind_ok (correctOne_invalid hread ht),if_pos ht]
    rfl
  · by_cases ht' : e.type = ext2Fs
    · obtain ⟨d',hpass,hd'⟩ := h.passes e (List.mem_of_getElem? hget) ht' d hd
      refine ⟨d',hd',?_⟩
      rw [correctAll,bind_ok (correctOne_ext2 hread ht' hpass),if_neg ht,if_pos ht',hnext]
      dsimp only [Option.getD_none]
      split
      · rfl
      · rfl
    · refine ⟨d,hd,?_⟩
      rw [correctAll,bind_ok (correctOne_other hread ht ht'),if_neg ht,if_neg ht',hnext]
      dsimp only [Option.getD_some]
      rw [if_neg (by decide)]
      simp [passesRunOn]

theorem drop_succ {es l : List PartitionEntry} {e : PartitionEntry} {j : ℕ} (h : l.drop j = e::es) :
    l.drop (j+1) = es := by
  rw [← List.drop_drop,h]
  rfl

theorem PassesEnd.treated_run (h : PassesEnd fuel primaries ss I) (hfuel : (front ss).length+1 ≤ fuel)
    {left : ℤ → ℤ} {j : ℕ} {es r : List PartitionEntry} (hj : (primaries ++ front ss).drop j = es)
    (hr : treated left j es = some r) (turns : ℕ) (hturns : es.length ≤ turns) {d : Device}
    (hd : I d) (old : PartitionEntry) :
    ∃ d', (correctAll stack fuel left turns ((j+1:ℕ):ℤ) old).run d = .ok r d' := by
  induction es generalizing j r turns d old with
  | nil => cases hr
  | cons e es ih =>
    obtain ⟨turns,rfl⟩ : ∃ m, turns = m+1 := ⟨turns-1,by rw [List.length_cons] at hturns; omega⟩
    rw [List.length_cons] at hturns
    obtain ⟨d',hd',hturn⟩ := @PassesEnd.turn stack fuel primaries ss I h hfuel j e es hj left d hd old turns
    rw [hturn]
    rw [treated] at hr
    by_cases ht : e.type = invalidType
    · rw [if_pos ht] at hr ⊢
      cases hr
      exact ⟨d',rfl⟩
    rw [if_neg ht] at hr ⊢
    by_cases ht' : e.type = ext2Fs
    · rw [if_pos ht'] at hr ⊢
      by_cases hl : left ((j+1:ℕ):ℤ) = -1
      · rw [if_pos hl] at hr ⊢
        cases hr
        exact ⟨d',rfl⟩
      · rw [if_neg hl] at hr ⊢
        obtain ⟨r',hr',rfl⟩ := Option.map_eq_some_iff.mp hr
        obtain ⟨d'',hrun⟩ := ih (drop_succ hj) hr' turns (by omega) hd' e
        exact ⟨d'',by rw [bind_ok hrun]; rfl⟩
    · rw [if_neg ht'] at hr ⊢
      exact ih (drop_succ hj) hr turns (by omega) hd' e

theorem PassesEnd.through_run (h : PassesEnd fuel primaries ss I) (hfuel : (front ss).length+1 ≤ fuel)
    (hno : hasFree ss = false) {left : ℤ → ℤ} {j : ℕ} {es : List PartitionEntry}
    (hlen : j+es.length = (primaries ++ front ss).length) (hj : (primaries ++ front ss).drop j = es)
    (hr : treated left j es = none) (turns : ℕ) (hturns : es.length < turns) {d : Device}
    (hd : I d) (old : PartitionEntry) :
    ∃ d', (correctAll stack fuel left turns ((j+1:ℕ):ℤ) old).run d = .ok (ext2Of es) d' := by
  induction es generalizing j turns d old with
  | nil =>
    obtain ⟨turns,rfl⟩ : ∃ m, turns = m+1 := ⟨turns-1,by omega⟩
    obtain ⟨r,hrun,ht⟩ := @Disk.info_end stack d _ _ (h.disk _ hd) hno j fuel
      (by rw [List.length_nil] at hlen; omega) hfuel old
    refine ⟨d,?_⟩
    rw [correctAll,bind_ok (correctOne_invalid hrun ht)]
    rfl
  | cons e es ih =>
    rw [List.length_cons] at hlen hturns
    obtain ⟨turns,rfl⟩ : ∃ m, turns = m+1 := ⟨turns-1,by omega⟩
    obtain ⟨d',hd',hturn⟩ := @PassesEnd.turn stack fuel primaries ss I h hfuel j e es hj left d hd old turns
    rw [hturn]
    rw [treated] at hr
    by_cases ht : e.type = invalidType
    · rw [if_pos ht] at hr
      cases hr
    rw [if_neg ht] at hr ⊢
    by_cases ht' : e.type = ext2Fs
    · rw [if_pos ht'] at hr ⊢
      by_cases hl : left ((j+1:ℕ):ℤ) = -1
      · rw [if_pos hl] at hr
        cases hr
      · rw [if_neg hl] at hr ⊢
        obtain ⟨d'',hrun⟩ := ih (by omega) (drop_succ hj) (Option.map_eq_none_iff.mp hr) turns (by omega) hd' e
        refine ⟨d'',?_⟩
        rw [bind_ok hrun,ext2Of,ext2Of,List.filter_cons_of_pos (by simp [ht'])]
        rfl
    · rw [if_neg ht'] at hr ⊢
      obtain ⟨d'',hrun⟩ := ih (by omega) (drop_succ hj) hr turns (by omega) hd' e
      refine ⟨d'',?_⟩
      rw [hrun,ext2Of,ext2Of,List.filter_cons_of_neg (by simp [ht'])]

theorem PassesEnd.free_run (h : PassesEnd fuel primaries ss I) (hfree : hasFree ss = true)
    {left : ℤ → ℤ} {j : ℕ} (hj : (primaries ++ front ss).length ≤ j) (turns : ℕ) {d : Device}
    (hd : I d) (old : PartitionEntry) :
    ∃ d', (correctAll stack fuel left turns ((j+1:ℕ):ℤ) old).run d = .error .outOfFuel d' := by
  induction turns generalizing j old with
  | zero => exact ⟨d,rfl⟩
  | succ turns ih =>
    rcases @Disk.info_free stack d _ _ (h.disk _ hd) hfree j hj fuel old with ⟨e,hread,ht⟩ | herr
    · have hnext : ((j+1:ℕ):ℤ)+1 = ((j+1+1:ℕ):ℤ) := by push_cast; ring
      obtain ⟨d',hr⟩ := @ih (j+1) (by omega) e
      refine ⟨d',?_⟩
      rw [correctAll,bind_ok (correctOne_other hread (by rw [ht]; decide) (by rw [ht]; decide)),hnext]
      dsimp only [Option.getD_some]
      rw [if_neg (by decide)]
      exact bind_error hr
    · refine ⟨d,?_⟩
      rw [correctAll,correctOnePartition]
      exact bind_error (bind_error herr)

theorem PassesEnd.treated_free (h : PassesEnd fuel primaries ss I) (hfuel : (front ss).length+1 ≤ fuel)
    (hfree : hasFree ss = true) {left : ℤ → ℤ} {j : ℕ} {es : List PartitionEntry}
    (hlen : j+es.length = (primaries ++ front ss).length) (hj : (primaries ++ front ss).drop j = es)
    (hr : treated left j es = none) (turns : ℕ) {d : Device} (hd : I d) (old : PartitionEntry) :
    ∃ d', (correctAll stack fuel left turns ((j+1:ℕ):ℤ) old).run d = .error .outOfFuel d' := by
  induction es generalizing j turns d old with
  | nil => exact h.free_run hfree (by rw [List.length_nil] at hlen; omega) turns hd old
  | cons e es ih =>
    cases turns with
    | zero => exact ⟨d,rfl⟩
    | succ turns =>
      rw [List.length_cons] at hlen
      obtain ⟨d',hd',hturn⟩ := @PassesEnd.turn stack fuel primaries ss I h hfuel j e es hj left d hd old turns
      rw [hturn]
      rw [treated] at hr
      by_cases ht : e.type = invalidType
      · rw [if_pos ht] at hr
        cases hr
      rw [if_neg ht] at hr ⊢
      by_cases ht' : e.type = ext2Fs
      · rw [if_pos ht'] at hr ⊢
        by_cases hl : left ((j+1:ℕ):ℤ) = -1
        · rw [if_pos hl] at hr
          cases hr
        · rw [if_neg hl] at hr ⊢
          obtain ⟨d'',hrun⟩ := ih (by omega) (drop_succ hj) (Option.map_eq_none_iff.mp hr) turns hd' e
          exact ⟨d'',bind_error hrun⟩
      · rw [if_neg ht'] at hr ⊢
        exact ih (by omega) (drop_succ hj) hr turns hd' e

variable {d : Device} {left : ℤ → ℤ} {turns : ℕ} {old : PartitionEntry}

theorem PassesEnd.run_treated (h : PassesEnd fuel primaries ss I) (hfuel : (front ss).length+1 ≤ fuel)
    (hd : I d) {r : List PartitionEntry} (hr : treated left 0 (primaries ++ front ss) = some r)
    (hturns : (primaries ++ front ss).length ≤ turns) :
    ∃ d', (correctPartition stack fuel left turns old 0).run d = .ok r d' :=
  h.treated_run hfuel (show (primaries ++ front ss).drop 0 = primaries ++ front ss from rfl) hr turns
    hturns hd old

theorem PassesEnd.run_through (h : PassesEnd fuel primaries ss I) (hfuel : (front ss).length+1 ≤ fuel)
    (hd : I d) (hno : hasFree ss = false) (hr : treated left 0 (primaries ++ front ss) = none)
    (hturns : (primaries ++ front ss).length < turns) :
    ∃ d', (correctPartition stack fuel left turns old 0).run d =
      .ok (ext2Of (primaries ++ front ss)) d' :=
  h.through_run hfuel hno (Nat.zero_add _)
    (show (primaries ++ front ss).drop 0 = primaries ++ front ss from rfl) hr turns hturns hd old

theorem PassesEnd.run_free (h : PassesEnd fuel primaries ss I) (hfuel : (front ss).length+1 ≤ fuel)
    (hd : I d) (hfree : hasFree ss = true) (hr : treated left 0 (primaries ++ front ss) = none) :
    ∃ d', (correctPartition stack fuel left turns old 0).run d = .error .outOfFuel d' :=
  h.treated_free hfuel hfree (Nat.zero_add _)
    (show (primaries ++ front ss).drop 0 = primaries ++ front ss from rfl) hr turns hd old

end Loop

/-- The device as it was, or with more on its log. -/
def Since (d d' : Device) : Prop := d' = d ∨ d.out.length < d'.out.length

theorem lasting_since (g : Globals) (d : Device) : Lasting g (Since d) where
  print e := by
    intro d' hd'
    rw [print_run]
    refine Or.inr ?_
    rcases hd' with rfl | hd'
    · simp
    · simp
      omega
  write b src pos := by
    have hprint : ∀ e, Triple (Since d) (print e) (fun _ d' => d.out.length < d'.out.length) (Since d) := by
      intro e d' hd'
      rw [print_run]
      rcases hd' with rfl | hd'
      · simp
      · simp
        omega
    refine (hprint _).bind fun _ => ((inBounds_readOnly _).triple fun _ hd' => Or.inr hd').bind fun bytes => ?_
    refine ((hprint _).weaken (fun _ hd' => Or.inr hd') fun _ _ h => h).bind fun _ => ?_
    intro d' hd'
    rw [EStateM.run_modify]
    exact Or.inr hd'

theorem passes_keeps {g : Globals} {I : Device → Prop} (hI : Lasting g I) (fuel : ℕ) :
    Triple I (passes g fuel) (fun _ => I) I :=
  (pass1_keeps hI _ _ _).bind fun _ => (pass2_keeps hI _).bind fun _ => (pass3_keeps hI _).bind fun _ =>
    pass4_keeps hI _

theorem loadGlobals_readOnly (e : PartitionEntry) : ReadOnly (loadGlobals e) := by
  refine ReadOnly.bind ?_ fun r => (readSectors_readOnly _ _).bind fun _ => .pure _
  refine (readSectors_readOnly _ _).bind fun contents => (inBounds_readOnly _).bind fun super_block => ?_
  split
  · exact .pure _
  · exact .throw _

theorem passes_silent {fuel : ℕ} {e : PartitionEntry} {d d' : Device} {u : Unit}
    (h : (loadGlobals e >>= fun g => passes g fuel).run d = .ok u d') (hout : d'.out = d.out) : d' = d := by
  obtain ⟨g,d₁,hload,hrun⟩ := bind_ok_inv h
  obtain rfl := (loadGlobals_readOnly e).state_eq hload
  have hkeep := passes_keeps (lasting_since g d₁) fuel d₁ (Or.inl rfl)
  rw [hrun] at hkeep
  exact hkeep.resolve_right fun hlt => by rw [hout] at hlt; omega

/-- The partitions in front of the first whose type is the mark for no partition. -/
def beforeInvalid (es : List PartitionEntry) : List PartitionEntry :=
  es.takeWhile fun e => e.type ≠ invalidType

theorem beforeInvalid_eq {es : List PartitionEntry} (h : ∀ e ∈ es, e.type ≠ invalidType) :
    beforeInvalid es = es := by
  induction es with
  | nil => rfl
  | cons e es ih =>
    have hbefore : beforeInvalid (e::es) = e::beforeInvalid es :=
      List.takeWhile_cons_of_pos (by simpa using h e (by simp))
    rw [hbefore,ih fun e' he' => h e' (by simp [he'])]

theorem treated_any {left : ℤ → ℤ} {j : ℕ} {es : List PartitionEntry}
    (h : (ext2Of (beforeInvalid es)).length ≤ 1) :
    treated left j es = some (ext2Of (beforeInvalid es)) ∨
      treated left j es = none ∧ ∀ e ∈ es, e.type ≠ invalidType := by
  induction es generalizing j with
  | nil => exact Or.inr ⟨rfl,by simp⟩
  | cons e es ih =>
    rw [treated]
    by_cases ht : e.type = invalidType
    · rw [if_pos ht]
      exact Or.inl (by simp [beforeInvalid,ht,ext2Of])
    have hbefore : beforeInvalid (e::es) = e::beforeInvalid es :=
      List.takeWhile_cons_of_pos (by simpa using ht)
    rw [hbefore] at h ⊢
    rw [if_neg ht]
    by_cases ht' : e.type = ext2Fs
    · have hfirst : ext2Of (e::beforeInvalid es) = e::ext2Of (beforeInvalid es) :=
        List.filter_cons_of_pos (by simp [ht'])
      rw [hfirst,List.length_cons] at h
      have hnil : ext2Of (beforeInvalid es) = [] := List.length_eq_zero_iff.mp (by omega)
      rw [if_pos ht',hfirst,hnil]
      by_cases hl : left ((j+1:ℕ):ℤ) = -1
      · exact Or.inl (if_pos hl)
      · rw [if_neg hl]
        rcases ih (j := j+1) (by omega) with hr | ⟨hr,hall⟩
        · exact Or.inl (by rw [hr,hnil]; rfl)
        · exact Or.inr ⟨by rw [hr]; rfl,by simpa [ht] using hall⟩
    · have hfirst : ext2Of (e::beforeInvalid es) = ext2Of (beforeInvalid es) :=
        List.filter_cons_of_neg (by simp [ht'])
      rw [hfirst] at h
      rw [if_neg ht',hfirst]
      rcases ih (j := j+1) h with hr | ⟨hr,hall⟩
      · exact Or.inl hr
      · exact Or.inr ⟨hr,by simpa [ht] using hall⟩

theorem treated_zero {j : ℕ} {es : List PartitionEntry} :
    ((∃ e ∈ es, e.type = invalidType) →
      treated (fun _ => 0) j es = some (ext2Of (beforeInvalid es))) ∧
    ((∀ e ∈ es, e.type ≠ invalidType) → treated (fun _ => 0) j es = none) := by
  induction es generalizing j with
  | nil => simp [treated]
  | cons e es ih =>
    obtain ⟨ih₁,ih₂⟩ := ih (j := j+1)
    rw [treated]
    by_cases ht : e.type = invalidType
    · rw [if_pos ht]
      exact ⟨fun _ => by simp [beforeInvalid,ht,ext2Of],fun hno => absurd ht (hno e (by simp))⟩
    have hbefore : beforeInvalid (e::es) = e::beforeInvalid es :=
      List.takeWhile_cons_of_pos (by simpa using ht)
    rw [if_neg ht,if_neg (show ¬ (0:ℤ) = -1 by decide),hbefore,ext2Of]
    have hex : (∃ e' ∈ e::es, e'.type = invalidType) → ∃ e' ∈ es, e'.type = invalidType := by
      simp [ht]
    by_cases ht' : e.type = ext2Fs
    · rw [if_pos ht',List.filter_cons_of_pos (by simp [ht'])]
      exact ⟨fun h => by rw [ih₁ (hex h)]; rfl,
        fun hno => by rw [ih₂ fun e' he' => hno e' (by simp [he'])]; rfl⟩
    · rw [if_neg ht',List.filter_cons_of_neg (by simp [ht'])]
      exact ⟨fun h => ih₁ (hex h),fun hno => ih₂ fun e' he' => hno e' (by simp [he'])⟩

theorem treated_one {j : ℕ} {es : List PartitionEntry} :
    (∀ r, treated (fun _ => -1) j es = some r → r.length ≤ 1) ∧
      (treated (fun _ => -1) j es = none → ext2Of es = []) := by
  induction es generalizing j with
  | nil => exact ⟨fun r hr => (by cases hr),fun _ => rfl⟩
  | cons e es ih =>
    rw [treated]
    by_cases ht : e.type = invalidType
    · rw [if_pos ht]
      refine ⟨fun r hr => ?_,fun hr => ?_⟩
      · cases hr
        simp
      · cases hr
    rw [if_neg ht]
    by_cases ht' : e.type = ext2Fs
    · rw [if_pos ht',if_pos rfl]
      refine ⟨fun r hr => ?_,fun hr => ?_⟩
      · cases hr
        simp
      · cases hr
    · rw [if_neg ht',ext2Of,List.filter_cons_of_neg (by simp [ht'])]
      exact ih

theorem partitions_front (ss : List Stretch) : Stretch.front ss <+: Stretch.partitions ss := by
  induction ss with
  | nil => exact List.prefix_refl _
  | cons s ss ih =>
    cases s with
    | logical e => exact (List.cons_prefix_cons).mpr ⟨rfl,ih⟩
    | free n => exact List.nil_prefix

section Reach

open Stretch

/-- The disk has at most one ext2 partition, with no partition of the type for none and no free
stretch in front of it; and there is no free stretch, or a partition of this type before it. -/
structure Reached (primaries : List PartitionEntry) (ss : List Stretch) : Prop where
  one : (ext2Of (primaries ++ partitions ss)).length ≤ 1
  before : ext2Of (beforeInvalid (primaries ++ front ss)) = ext2Of (primaries ++ partitions ss)
  ends : hasFree ss = false ∨ ∃ e ∈ primaries ++ front ss, e.type = invalidType

/-- Whatever the calls leave as their value, the loop ends with the passes run once on each ext2
partition, if and only if the partitions lie in this way. -/
theorem correct_all_iff {stack : ℕ → Byte} {fuel : ℕ} {primaries : List PartitionEntry}
    {ss : List Stretch} {I : Device → Prop} (h : PassesEnd fuel primaries ss I)
    (hfuel : (front ss).length+1 ≤ fuel) {d : Device} (hd : I d) (old : PartitionEntry) :
    (∀ left, ∃ n, ∀ turns, n ≤ turns → ∃ r d',
      (correctPartition stack fuel left turns old 0).run d = .ok r d' ∧
        r.Perm (ext2Of (primaries ++ partitions ss))) ↔ Reached primaries ss := by
  have hsub : (ext2Of (beforeInvalid (primaries ++ front ss))).Sublist
      (ext2Of (primaries ++ partitions ss)) :=
    ((List.takeWhile_prefix _).sublist.trans ((partitions_front ss).sublist.append_left _)).filter _
  have hlen : ∀ n, (primaries ++ front ss).length < max n ((primaries ++ front ss).length+1) :=
    fun n => by omega
  constructor
  · intro hall
    have hone : (ext2Of (primaries ++ partitions ss)).length ≤ 1 := by
      obtain ⟨n,hn⟩ := hall fun _ => -1
      obtain ⟨r,d',hrun,hperm⟩ := hn _ (le_max_left n ((primaries ++ front ss).length+1))
      rw [← hperm.length_eq]
      obtain ⟨htreated,hnone⟩ := @treated_one 0 (primaries ++ front ss)
      cases ht : treated (fun _ => -1) 0 (primaries ++ front ss) with
      | some r' =>
        obtain ⟨d'',hrun'⟩ := h.run_treated hfuel hd ht (hlen n).le
        rw [hrun] at hrun'
        cases hrun'
        exact htreated _ ht
      | none =>
        cases hfree : hasFree ss with
        | true =>
          obtain ⟨d'',hrun'⟩ := h.run_free hfuel hd hfree ht
          rw [hrun] at hrun'
          cases hrun'
        | false =>
          obtain ⟨d'',hrun'⟩ := h.run_through hfuel hd hfree ht (hlen n)
          rw [hrun] at hrun'
          cases hrun'
          rw [hnone ht]
          exact Nat.zero_le 1
    obtain ⟨n,hn⟩ := hall fun _ => 0
    obtain ⟨r,d',hrun,hperm⟩ := hn _ (le_max_left n ((primaries ++ front ss).length+1))
    obtain ⟨hsome,hnone⟩ := @treated_zero 0 (primaries ++ front ss)
    by_cases hex : ∃ e ∈ primaries ++ front ss, e.type = invalidType
    · obtain ⟨d'',hrun'⟩ := h.run_treated hfuel hd (hsome hex) (hlen n).le
      rw [hrun] at hrun'
      cases hrun'
      exact ⟨hone,hsub.eq_of_length hperm.length_eq,Or.inr hex⟩
    · have hno : ∀ e ∈ primaries ++ front ss, e.type ≠ invalidType := fun e he ht => hex ⟨e,he,ht⟩
      cases hfree : hasFree ss with
      | true =>
        obtain ⟨d'',hrun'⟩ := h.run_free hfuel hd hfree (hnone hno)
        rw [hrun] at hrun'
        cases hrun'
      | false =>
        obtain ⟨d'',hrun'⟩ := h.run_through hfuel hd hfree (hnone hno) (hlen n)
        rw [hrun] at hrun'
        cases hrun'
        refine ⟨hone,?_,Or.inl hfree⟩
        rw [beforeInvalid_eq hno] at hsub ⊢
        exact hsub.eq_of_length hperm.length_eq
  · intro hr left
    refine ⟨(primaries ++ front ss).length+1,fun turns hturns => ?_⟩
    rw [← hr.before]
    rcases @treated_any left 0 (primaries ++ front ss) (by rw [hr.before]; exact hr.one) with
      ht | ⟨ht,hno⟩
    · obtain ⟨d',hrun⟩ := h.run_treated hfuel hd ht (Nat.le_of_succ_le hturns)
      exact ⟨_,d',hrun,.refl _⟩
    · have hfree : hasFree ss = false := hr.ends.resolve_right fun ⟨e,he,hte⟩ => hno e he hte
      obtain ⟨d',hrun⟩ := h.run_through hfuel hd hfree ht hturns
      exact ⟨_,d',hrun,by rw [beforeInvalid_eq hno]⟩

end Reach

def entryPiece (s offset type start length : ℕ) : ℕ × ℕ × (ℕ → ℕ) :=
  piece (512*s+offset+4) ([type,0,0,0] ++ littleEndian start 4 ++ littleEndian length 4)

/-- A clean ext2 partition with one directory, and behind it an extended partition that is full with
one logical partition. -/
def fullDisk : Buf := exampleImage 18 [
  entryPiece 0 446 0x83 1 32, entryPiece 0 462 5 33 4, entryPiece 33 446 0x82 1 3,
  blockPiece 1 0 (littleEndian 16 4 ++ littleEndian 16 4 ++ List.replicate 12 0 ++ littleEndian 1 4 ++
    List.replicate 8 0 ++ littleEndian 8192 4 ++ littleEndian 8192 4 ++ littleEndian 16 4),
  blockPiece 2 0 (littleEndian 3 4 ++ littleEndian 4 4 ++ littleEndian 5 4), blockPiece 3 0 [0x7F],
  inodePiece 2 (inodeBytes 0x4000 1024 2 [7]),
  blockPiece 7 0 (entryBytes 2 12 2 [46,0,0,0] ++ entryBytes 2 1012 2 [46,46])]

/-- The logical partition of `fullDisk` in a longer extended partition, the rest of which is zero. -/
def looseDisk : Buf := exampleImage 4 [entryPiece 0 446 5 1 4, entryPiece 1 446 0x82 1 1]

theorem fullDisk_laid : Disk fullDisk [⟨0x83,1,32⟩,⟨5,33,4⟩,⟨0,0,0⟩,⟨0,0,0⟩] [.logical ⟨0x82,34,3⟩] where
  mbr_in := by decide
  primaries_eq := by decide +kernel
  extended e he := by
    obtain rfl : (⟨5,33,4⟩:PartitionEntry) = e := by simpa [dosExtendedPartition] using he
    exact ⟨by decide,.logical (by decide) (by decide) (by decide +kernel) (by decide) (by decide) .done⟩
  none_extended h := by simp [dosExtendedPartition] at h

theorem looseDisk_laid : Disk looseDisk [⟨5,1,4⟩,⟨0,0,0⟩,⟨0,0,0⟩,⟨0,0,0⟩]
    [.logical ⟨0x82,2,1⟩,.free 2] where
  mbr_in := by decide
  primaries_eq := by decide +kernel
  extended e he := by
    obtain rfl : (⟨5,1,4⟩:PartitionEntry) = e := by simpa [dosExtendedPartition] using he
    exact ⟨by decide,.logical (by decide) (by decide) (by decide +kernel) (by decide) (by decide)
      (.free (by decide) (by decide) (by decide +kernel) .done)⟩
  none_extended h := by simp [dosExtendedPartition] at h

theorem correct_all_iff_full : (∀ left, ∃ n, ∀ turns, n ≤ turns → ∃ r d',
      (correctPartition (fun _ => 0) 2 left turns ⟨0,0,0⟩ 0).run ⟨fullDisk,[]⟩ = .ok r d' ∧
        r.Perm (ext2Of ([⟨0x83,1,32⟩,⟨5,33,4⟩,⟨0,0,0⟩,⟨0,0,0⟩] ++
          Stretch.partitions [.logical ⟨0x82,34,3⟩]))) ↔
    Reached [⟨0x83,1,32⟩,⟨5,33,4⟩,⟨0,0,0⟩,⟨0,0,0⟩] [.logical ⟨0x82,34,3⟩] := by
  refine correct_all_iff (I := fun d => d = ⟨fullDisk,[]⟩) ⟨fun d hd => ?_,fun e he ht d hd => ?_⟩ (by decide)
    rfl _
  · rw [hd]
    exact fullDisk_laid
  · obtain rfl : (⟨0x83,1,32⟩:PartitionEntry) = e := by
      simp only [Stretch.front,List.cons_append,List.nil_append,List.mem_cons,List.not_mem_nil,or_false] at he
      rcases he with rfl | rfl | rfl | rfl | rfl
      · rfl
      all_goals exact absurd ht (by decide)
    obtain ⟨u,d',hrun,hout⟩ := exists_of_endsIn (show endsIn (loadGlobals ⟨0x83,1,32⟩ >>= fun g =>
      passes g 2) ⟨fullDisk,[]⟩ (fun _ d => decide (d.out = [])) = true by decide +kernel)
    obtain rfl := passes_silent hrun (of_decide_eq_true hout)
    rw [hd]
    exact ⟨_,hrun,rfl⟩

/-- Behind the logical partition of `looseDisk` the loop finds empty partitions without end. -/
theorem correct_all_loose : ∃ primaries ss, Disk looseDisk primaries ss ∧
    ext2Of (primaries ++ Stretch.partitions ss) = [] ∧ ∀ stack fuel left turns old, 2 ≤ fuel →
      ∃ d', (correctPartition stack fuel left turns old 0).run ⟨looseDisk,[]⟩ = .error .outOfFuel d' := by
  refine ⟨_,_,looseDisk_laid,by decide,fun stack fuel left turns old hfuel => ?_⟩
  have hends : PassesEnd fuel [⟨5,1,4⟩,⟨0,0,0⟩,⟨0,0,0⟩,⟨0,0,0⟩] [.logical ⟨0x82,2,1⟩,.free 2]
      (fun d => d = ⟨looseDisk,[]⟩) := by
    refine ⟨fun d hd => hd ▸ looseDisk_laid,fun e he ht => ?_⟩
    have hno : e ∉ ext2Of ([⟨5,1,4⟩,⟨0,0,0⟩,⟨0,0,0⟩,⟨0,0,0⟩] ++
      Stretch.front [.logical ⟨0x82,2,1⟩,.free 2]) := by
        rw [show ext2Of _ = [] from by decide]
        simp
    exact absurd (List.mem_filter.mpr ⟨he,by simpa using ht⟩) hno
  exact hends.run_free hfuel rfl rfl rfl

end MyFsck
