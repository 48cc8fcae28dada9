import MyFsck.Directory
import MyFsck.Frames

/-! `add_to_lost_found`: the entry it creates, the place it finds for it, and what both writes do to
the directories they touch. -/
namespace MyFsck

open ByteBuffer ErrorState

/-- The entries from `off` up to `stop`. -/
inductive Segment (b : Buf) : ℕ → List (ℕ × DirEntry) → ℕ → Prop
  | nil {off : ℕ} : Segment b off [] off
  | cons {off stop : ℕ} {es : List (ℕ × DirEntry)} : num b.byte off 4 ≠ 0 →
      8+(entryAt b off).nameLen ≤ (entryAt b off).recLen →
      Segment b (off+(entryAt b off).recLen) es stop → Segment b off ((off,entryAt b off)::es) stop

namespace Segment

variable {b b' : Buf} {off stop : ℕ} {es es' : List (ℕ × DirEntry)}

theorem le (h : Segment b off es stop) : off ≤ stop := by
  induction h with
  | nil => exact le_rfl
  | cons _ _ _ ih => omega

theorem append {m : ℕ} (h : Segment b off es m) (h' : Segment b m es' stop) :
    Segment b off (es++es') stop := by
  induction h with
  | nil => exact h'
  | cons hn hl _ ih => exact .cons hn hl (ih h')

theorem snoc_inv {p : ℕ × DirEntry} (h : Segment b off (es++[p]) stop) :
    Segment b off es p.1 ∧ p.2 = entryAt b p.1 ∧ num b.byte p.1 4 ≠ 0 ∧
      8+p.2.nameLen ≤ p.2.recLen ∧ p.1+p.2.recLen = stop := by
  induction es generalizing off with
  | nil =>
    cases h with
    | cons hn hl h =>
      cases h
      exact ⟨.nil,rfl,hn,hl,rfl⟩
  | cons q es ih =>
    cases h with
    | cons hn hl h =>
      have hrest := ih h
      exact ⟨.cons hn hl hrest.1,hrest.2⟩

theorem congr (h : Segment b off es stop) (hb : ∀ i, off ≤ i → i < stop → b'.byte i = b.byte i) :
    Segment b' off es stop := by
  induction h with
  | nil => exact .nil
  | @cons off stop es hn hl h ih =>
    have hle := h.le
    have he : entryAt b off = entryAt b' off :=
      entryAt_congr fun i hi hlt => (hb i hi (by omega)).symm
    have hnum : num b'.byte off 4 = num b.byte off 4 := num_congr fun k _ => hb _ (by omega) (by omega)
    have hrest := ih fun i hi hlt => hb i (by omega) hlt
    rw [he] at hl hrest ⊢
    exact .cons (by rwa [hnum]) hl hrest

theorem chain (h : Segment b off es stop)
    (hs : stop = b.size ∨ (stop+4 ≤ b.size ∧ num b.byte stop 4 = 0)) : Chain b off es := by
  induction h with
  | nil =>
    rcases hs with rfl | ⟨hle,hz⟩
    · exact .done
    · exact .unused hle hz
  | cons hn hl _ ih => exact .live hn hl (ih hs)

theorem live (h : Segment b off es b.size) : LiveChain b off es := by
  obtain ⟨stop,hstop⟩ : ∃ stop, stop = b.size := ⟨_,rfl⟩
  rw [← hstop] at h
  induction h with
  | nil =>
    subst hstop
    exact .done
  | cons hn hl _ ih => exact .live hn hl (ih hstop)

end Segment

theorem Chain.segment {b : Buf} {off : ℕ} {es : List (ℕ × DirEntry)} (h : Chain b off es) :
    ∃ stop, Segment b off es stop ∧
      (stop = b.size ∨ (stop+4 ≤ b.size ∧ num b.byte stop 4 = 0)) := by
  induction h with
  | done => exact ⟨_,.nil,Or.inl rfl⟩
  | unused hle hz => exact ⟨_,.nil,Or.inr ⟨hle,hz⟩⟩
  | live hn hl _ ih =>
    obtain ⟨stop,h,hs⟩ := ih
    exact ⟨stop,.cons hn hl h,hs⟩

theorem LiveChain.segment {b : Buf} {off : ℕ} {es : List (ℕ × DirEntry)} (h : LiveChain b off es) :
    Segment b off es b.size := by
  induction h with
  | done => exact .nil
  | live hn hl _ ih => exact .cons hn hl ih

theorem findLastEntry_run {b : Buf} {off stop : ℕ} {es : List (ℕ × DirEntry)}
    (h : Segment b off es stop)
    (hs : stop = b.size ∨ (stop+4 ≤ b.size ∧ num b.byte stop 4 = 0)) {turns : ℕ} {len : ℤ}
    {entry : Option DirEntry} (ht : b.size ≤ turns+off) (d : Device) :
    (findLastEntry b.size b turns off len entry).run d =
      .ok (stop,if stop = b.size then (es.getLast?.map fun p => (p.2.recLen:ℤ)).getD len else -1,
        (es.getLast?.map Prod.snd).or entry) d := by
  induction h generalizing turns len entry with
  | @nil off =>
    cases turns with
    | zero =>
      have hoff : off = b.size := by
        rcases hs with hs | ⟨hs,_⟩
        · exact hs
        · omega
      simp [findLastEntry,hoff]
    | succ turns =>
      rw [findLastEntry]
      by_cases hlt : off < b.size
      · have hz : off+4 ≤ b.size ∧ num b.byte off 4 = 0 := hs.resolve_left (by omega)
        simp [hlt,readDirEntryInBlock_unused hz.2 hz.1,hlt.ne]
      · have hoff : off = b.size := by
          rcases hs with hs | ⟨hs,_⟩
          · exact hs
          · omega
        simp [hoff]
  | @cons off stop es hn hl h ih =>
    have hle := h.le
    have hstop : stop ≤ b.size := by
      rcases hs with hs | ⟨hs,_⟩ <;> omega
    cases turns with
    | zero => omega
    | succ turns =>
      have hr := readDirEntryInBlock_live hn (by omega)
      rw [findLastEntry,if_pos (by omega),hr,bind_ok (inBounds_some _ d)]
      have hrest := @ih hs turns (entryAt b off).recLen (some (entryAt b off)) (by omega)
      refine hrest.trans ?_
      cases es with
      | nil => simp
      | cons p es =>
        obtain ⟨q,hq⟩ : ∃ q, (p::es).getLast? = some q := by simp [List.getLast?_cons]
        have hq' : ((off,entryAt b off)::p::es).getLast? = some q := by
          rw [List.getLast?_cons_cons]
          exact hq
        simp [hq,hq']

theorem nameDigits_spec (k n : ℕ) : (nameDigits k n).length ≤ k ∧ ∀ c ∈ nameDigits k n, c ≠ 0 := by
  induction k generalizing n with
  | zero => simp [nameDigits]
  | succ k ih =>
    rw [nameDigits]
    split
    · simp
    · have h := ih (n/10)
      refine ⟨by simp [h.1],fun c hc => ?_⟩
      rcases List.mem_cons.mp hc with rfl | hc
      · have hlt := Nat.mod_lt n (by norm_num : 0 < 10)
        intro hz
        have := congrArg BitVec.toNat hz
        simp only [BitVec.toNat_ofNat,BitVec.ofNat_eq_ofNat] at this
        omega
      · exact h.2 c hc

/-- The entry that `create_new_entry` makes for inode `i`. -/
def Globals.newEntry (g : Globals) (img : Buf) (i : ℕ) : DirEntry where
  inode := i
  recLen := padTo4Bytes (dirEntryPrefixLen+(nameDigits 10 i).length)
  nameLen := (nameDigits 10 i).length
  fileType := if inodeIsDir (g.inodeAt img i) then dirType else regType
  name := (nameDigits 10 i).reverse

theorem createNewEntry_run {g : Globals} (hg : Geometry g) {d : Device} (hf : g.Fits d.image) {i : ℕ}
    (h1 : 1 ≤ i) (hi : i ≤ g.superBlock.sInodesCount) :
    (createNewEntry g i).run d = .ok (g.newEntry d.image i) d := by
  unfold createNewEntry
  rw [bind_ok (readInode_run hg hf h1 hi)]
  simp [Globals.newEntry]

/-- An entry whose fields fit their places on the disk. -/
structure EntryFits (new : DirEntry) : Prop where
  inode_pos : 0 < new.inode
  inode_lt : new.inode < 2^32
  recLen_eq : new.recLen = padTo4Bytes (8+new.nameLen)
  name_length : new.name.length = new.nameLen
  nameLen_lt : new.nameLen < 256
  type_lt : new.fileType < 256
  name_ne : ∀ c ∈ new.name, c ≠ 0

theorem entryFits_named {n t : ℕ} (h1 : 1 ≤ n) (hn : n < 2^32) (ht : t < 256) :
    EntryFits ⟨n,padTo4Bytes (dirEntryPrefixLen+(nameDigits 10 n).length),(nameDigits 10 n).length,t,
      (nameDigits 10 n).reverse⟩ where
  inode_pos := h1
  inode_lt := hn
  recLen_eq := rfl
  name_length := List.length_reverse
  nameLen_lt := (nameDigits_spec 10 n).1.trans_lt (by norm_num)
  type_lt := ht
  name_ne c hc := (nameDigits_spec 10 n).2 c (List.mem_reverse.mp hc)

theorem newEntry_fits {g : Globals} {img : Buf} {i : ℕ} (h1 : 1 ≤ i) (hi : i < 2^32) :
    EntryFits (g.newEntry img i) := by
  refine entryFits_named h1 hi ?_
  split <;> decide

theorem storeBytes_eq {b : Buf} {pos : ℕ} {cs : List Byte} (h : pos+cs.length ≤ b.size) :
    storeBytes b pos cs = some (b.putList pos cs) := by
  induction cs generalizing b pos with
  | nil => rfl
  | cons c cs ih =>
    simp only [List.length_cons] at h
    have hrest := @ih (b.set pos c) (pos+1) (by rw [Buf.set_size]; omega)
    rw [storeBytes,Buf.store_eq _ (by omega),Option.bind_eq_bind,Option.bind_some,hrest]
    rfl

/-- A block with the entry `new` put at `q`, to the end of the block, and the `rec_len` at `p` made
`real`. -/
def insertEntry (b : Buf) (p real q : ℕ) (new : DirEntry) : Buf :=
  (((((b.putNum p real 2).putNum q new.inode 4).putNum (q+4) ((b.size-q)%2^16) 2).set (q+6)
    (BitVec.ofNat 8 new.nameLen)).set (q+7) (BitVec.ofNat 8 new.fileType)).putList (q+8) (new.name++[0])

section Insert

variable {b : Buf} {p real q : ℕ} {new : DirEntry}

@[simp] theorem insertEntry_size : (insertEntry b p real q new).size = b.size := by
  simp [insertEntry]

theorem insertEntry_byte_out {i : ℕ} (h : i < q ∨ q+9+new.name.length ≤ i)
    (h' : i < p ∨ p+2 ≤ i) : (insertEntry b p real q new).byte i = b.byte i := by
  unfold insertEntry
  rw [Buf.putList_byte_out (by simp; omega),Buf.set_byte_ne (by omega),Buf.set_byte_ne (by omega),
    Buf.putNum_byte_out (by omega),Buf.putNum_byte_out (by omega),Buf.putNum_byte_out (by omega)]

theorem insertEntry_num (hp : p+2 ≤ q) (hq : q ≤ b.size) (hr : real < 2^16) :
    num (insertEntry b p real q new).byte p 2 = real := by
  have hbytes : ∀ k < 2, (insertEntry b p real q new).byte (p+k) = (b.putNum p real 2).byte (p+k) := by
    intro k hk
    unfold insertEntry
    rw [Buf.putList_byte_out (by omega),Buf.set_byte_ne (by omega),Buf.set_byte_ne (by omega),
      Buf.putNum_byte_out (by omega),Buf.putNum_byte_out (by omega)]
  rw [num_congr hbytes,Buf.num_putNum (by omega)]
  exact Nat.mod_eq_of_lt (by simpa using hr)

theorem nameAt_eq {b : Buf} {pos : ℕ} {cs : List Byte} (hcs : ∀ c ∈ cs, c ≠ 0)
    (hb : ∀ k (hk : k < cs.length), b.byte (pos+k) = cs[k]) : nameAt b pos cs.length = cs := by
  induction cs generalizing pos with
  | nil => rfl
  | cons c cs ih =>
    have h0 : b.byte pos = c := hb 0 (by simp)
    have hrest := @ih (pos+1) (fun c hc => hcs c (by simp [hc])) fun k hk => by
      have := hb (k+1) (by simpa using hk)
      rw [show pos+(k+1) = pos+1+k by ring] at this
      exact this
    have hc : c ≠ 0 := hcs c (by simp)
    rw [List.length_cons,nameAt,h0,if_neg hc,hrest]

theorem entryAt_insertEntry (hnew : EntryFits new) (hq : q+9+new.nameLen ≤ b.size)
    (hs : b.size-q < 2^16) : entryAt (insertEntry b p real q new) q =
      { new with recLen := b.size-q } ∧ num (insertEntry b p real q new).byte q 4 = new.inode := by
  have hlen := hnew.name_length
  have hnl := hnew.nameLen_lt
  have hty := hnew.type_lt
  have hil := hnew.inode_lt
  have hinode : num (insertEntry b p real q new).byte q 4 = new.inode := by
    have hbytes : ∀ k < 4, (insertEntry b p real q new).byte (q+k) =
        ((b.putNum p real 2).putNum q new.inode 4).byte (q+k) := by
      intro k hk
      unfold insertEntry
      rw [Buf.putList_byte_out (by omega),Buf.set_byte_ne (by omega),Buf.set_byte_ne (by omega),
        Buf.putNum_byte_out (by omega)]
    rw [num_congr hbytes,Buf.num_putNum (by rw [Buf.putNum_size]; omega)]
    exact Nat.mod_eq_of_lt (by norm_num at hil ⊢; exact hil)
  have hrec : num (insertEntry b p real q new).byte (q+4) 2 = b.size-q := by
    have hbytes : ∀ k < 2, (insertEntry b p real q new).byte (q+4+k) =
        (((b.putNum p real 2).putNum q new.inode 4).putNum (q+4) ((b.size-q)%2^16) 2).byte (q+4+k) := by
      intro k hk
      unfold insertEntry
      rw [Buf.putList_byte_out (by omega),Buf.set_byte_ne (by omega),Buf.set_byte_ne (by omega)]
    rw [num_congr hbytes,Buf.num_putNum (by simp only [Buf.putNum_size]; omega)]
    norm_num
    omega
  have hnlen : num (insertEntry b p real q new).byte (q+6) 1 = new.nameLen := by
    have hbyte : (insertEntry b p real q new).byte (q+6) = BitVec.ofNat 8 new.nameLen := by
      unfold insertEntry
      rw [Buf.putList_byte_out (by omega),Buf.set_byte_ne (by omega),
        Buf.set_byte_self (by simp only [Buf.putNum_size]; omega)]
    simp only [num,Nat.add_zero,hbyte,BitVec.toNat_ofNat]
    omega
  have htype : num (insertEntry b p real q new).byte (q+7) 1 = new.fileType := by
    have hbyte : (insertEntry b p real q new).byte (q+7) = BitVec.ofNat 8 new.fileType := by
      unfold insertEntry
      rw [Buf.putList_byte_out (by omega),
        Buf.set_byte_self (by simp only [Buf.putNum_size,Buf.set_size]; omega)]
    simp only [num,Nat.add_zero,hbyte,BitVec.toNat_ofNat]
    omega
  have hname : nameAt (insertEntry b p real q new) (q+8) new.nameLen = new.name := by
    rw [← hlen]
    refine nameAt_eq hnew.name_ne fun k hk => ?_
    unfold insertEntry
    rw [Buf.putList_byte_in (by simp; omega) (by simp; omega)]
    simp [hk]
  refine ⟨?_,hinode⟩
  simp only [entryAt,hinode,hrec,hnlen,htype,hname]

end Insert

section Place

variable {b : Buf} {es : List (ℕ × DirEntry)} {new : DirEntry}

theorem insertEntry_segment {o : ℕ} {e : DirEntry} (h : Segment b 0 (es++[(o,e)]) b.size)
    (hnew : EntryFits new) (hroom : o+padTo4Bytes (8+e.nameLen)+new.recLen < b.size)
    (hs : b.size < 2^16) :
    Segment (insertEntry b (o+4) (padTo4Bytes (8+e.nameLen)) (o+padTo4Bytes (8+e.nameLen)) new) 0
      (es++[(o,{ e with recLen := padTo4Bytes (8+e.nameLen) }),
        (o+padTo4Bytes (8+e.nameLen),
          { new with recLen := b.size-(o+padTo4Bytes (8+e.nameLen)) })]) b.size := by
  obtain ⟨hinit,he,hn,hl,_⟩ := h.snoc_inv
  dsimp only at hinit he hn hl
  have hpad := le_padTo4Bytes (8+e.nameLen)
  have hrec := hnew.recLen_eq
  have hpad' := le_padTo4Bytes (8+new.nameLen)
  have hlen := hnew.name_length
  obtain ⟨real,hreal⟩ : ∃ real, real = padTo4Bytes (8+e.nameLen) := ⟨_,rfl⟩
  rw [← hreal] at hpad hroom ⊢
  obtain ⟨b',hb'⟩ : ∃ b', b' = insertEntry b (o+4) real (o+real) new := ⟨_,rfl⟩
  have hsize : b'.size = b.size := by rw [hb',insertEntry_size]
  have hout : ∀ i, i < o+real → (i < o+4 ∨ o+6 ≤ i) → b'.byte i = b.byte i := by
    intro i hi hi'
    rw [hb',insertEntry_byte_out (by omega) (by omega)]
  have hlast : entryAt b' o = { e with recLen := real } := by
    have hnum : num b'.byte (o+4) 2 = real := by
      rw [hb',insertEntry_num (by omega) (by omega) (by omega)]
    have field : ∀ p n, p+n ≤ 8 → (p+n ≤ 4 ∨ 6 ≤ p) → num b'.byte (o+p) n = num b.byte (o+p) n :=
      fun p n h₁ h₂ => num_congr fun k _ => hout _ (by omega) (by omega)
    have h0 := field 0 4 (by omega) (by omega)
    rw [Nat.add_zero] at h0
    have hlen' : num b.byte (o+6) 1 = e.nameLen := by rw [he]; rfl
    have hname : nameAt b' (o+8) e.nameLen = nameAt b (o+8) e.nameLen :=
      nameAt_congr fun i hi hlt => hout i (by omega) (by omega)
    simp only [entryAt,hnum,h0,field 6 1 (by omega) (by omega),field 7 1 (by omega) (by omega),hlen',
      hname]
    rw [he]
    rfl
  obtain ⟨hnewEntry,hnewNum⟩ := @entryAt_insertEntry b (o+4) real (o+real) new hnew
    (by omega) (by omega)
  rw [← hb'] at hnewEntry hnewNum ⊢
  refine (hinit.congr fun i _ hi => hout i (by omega) (by omega)).append ?_
  have hn' : num b'.byte o 4 ≠ 0 := by
    rw [show num b'.byte o 4 = num b.byte o 4 from num_congr fun k _ => hout _ (by omega) (by omega)]
    exact hn
  have hend : Segment b' (o+real) [(o+real,{ new with recLen := b.size-(o+real) })] b.size := by
    have hstop : o+real+(entryAt b' (o+real)).recLen = b.size := by
      rw [hnewEntry]
      dsimp only
      omega
    have hnil : Segment b' (o+real+(entryAt b' (o+real)).recLen) [] b.size := by
      rw [hstop]
      exact .nil
    have hcons := Segment.cons (by rw [hnewNum]; exact hnew.inode_pos.ne')
      (by rw [hnewEntry]; dsimp only; omega) hnil
    rwa [hnewEntry] at hcons
  have hcons := Segment.cons hn' (by rw [hlast]; dsimp only; omega)
    (show Segment b' (o+(entryAt b' o).recLen) _ b.size by rw [hlast]; exact hend)
  rwa [hlast] at hcons

theorem insertEntry_unused {stop real : ℕ} (h : Segment b 0 es stop)
    (hz : num b.byte stop 4 = 0) (hreal : 8 ≤ real) :
    Segment (insertEntry b (stop+1+4) real (stop+1+real) new) 0 es stop ∧
      num (insertEntry b (stop+1+4) real (stop+1+real) new).byte stop 4 = 0 := by
  have hout : ∀ i, i < stop+4 →
      (insertEntry b (stop+1+4) real (stop+1+real) new).byte i = b.byte i := fun i hi =>
    insertEntry_byte_out (by omega) (by omega)
  exact ⟨h.congr fun i _ hi => hout i (by omega),
    (num_congr fun k _ => hout _ (by omega)).trans hz⟩

/-- The block `b'` is `b` with the entry `new` put behind its last entry. -/
def Extended (new : DirEntry) (b b' : Buf) : Prop :=
  ∃ init o e, entriesOf b = init++[(o,e)] ∧ LiveBlock b' ∧
    o+padTo4Bytes (8+e.nameLen)+new.recLen < b.size ∧
    entriesOf b' = init++[(o,{ e with recLen := padTo4Bytes (8+e.nameLen) }),
      (o+padTo4Bytes (8+e.nameLen),{ new with recLen := b.size-(o+padTo4Bytes (8+e.nameLen)) })]

/-- What a block looks like into which the entry `new` was put: it is the new last entry, or it
stands where no scan finds it. -/
def Grown (new : DirEntry) (b b' : Buf) : Prop :=
  (WellFormedBlock b' ∧ entriesOf b' = entriesOf b) ∨ Extended new b b'

/-- The bytes that the last entry of a block has to spare. -/
def lastSlack (b : Buf) : ℕ :=
  match (entriesOf b).getLast? with
  | some (o,e) => b.size-(o+padTo4Bytes (8+e.nameLen))
  | none => 0

theorem lastSlack_concat {init : List (ℕ × DirEntry)} {o : ℕ} {e : DirEntry}
    (h : entriesOf b = init++[(o,e)]) :
    lastSlack b = b.size-(o+padTo4Bytes (8+e.nameLen)) := by
  rw [lastSlack,h,List.getLast?_concat]

theorem Extended.lastSlack_eq {b' : Buf} (h : Extended new b b') (hnew : EntryFits new)
    (hs : b'.size = b.size) : lastSlack b' = lastSlack b-new.recLen := by
  obtain ⟨init,o,e,he,_,_,he'⟩ := h
  rw [lastSlack_concat he,@lastSlack_concat b' (init++[(o,{ e with recLen := padTo4Bytes (8+e.nameLen) })])
    _ _ (by rw [he',List.append_assoc]; rfl),hs,hnew.recLen_eq]
  dsimp only
  omega

theorem Segment.liveBlock {b : Buf} {es : List (ℕ × DirEntry)} (h : Segment b 0 es b.size) :
    LiveBlock b ∧ entriesOf b = es := by
  have he := h.live.chain.wellFormed.1
  exact ⟨by rw [LiveBlock,he]; exact h.live,he⟩

end Place

section PlaceRun

variable {g : Globals}

theorem write_whole_run (hg : Geometry g) {d : Device} {b : ℕ} {src : Buf}
    (hb : b < g.superBlock.sBlocksCount) (hs : src.size = g.blockSize) :
    (g.write b src 0).run d = .ok () ⟨g.setBlock d.image b src,d.out ++ writeEvents g b⟩ := by
  rw [write_run hg.sizes hb (by omega),Buf.slice_whole hs]

theorem writeNewEntry_run (hg : Geometry g) {d : Device} {b q p real : ℕ} {blk : Buf}
    {new : DirEntry} (hnew : EntryFits new) (hb : b < g.superBlock.sBlocksCount)
    (hs : blk.size = g.blockSize) (hq : q+9+new.nameLen ≤ g.blockSize) :
    (writeNewEntry g new (blk.putNum p real 2) b q).run d =
      .ok () ⟨g.setBlock d.image b (insertEntry blk p real q new),d.out ++ writeEvents g b⟩ := by
  have hlen := hnew.name_length
  have hsize : (insertEntry blk p real q new).size = g.blockSize := by rw [insertEntry_size,hs]
  rw [← write_whole_run hg hb hsize]
  unfold writeNewEntry insertEntry
  rw [writeNumberIntoBlock_eq (by simp; omega),bind_ok (inBounds_some _ d)]
  dsimp only
  rw [writeNumberIntoBlock_eq (by simp; omega),bind_ok (inBounds_some _ d),
    Buf.store_eq _ (by simp; omega),bind_ok (inBounds_some _ d),Buf.store_eq _ (by simp; omega),
    bind_ok (inBounds_some _ d),storeBytes_eq (by simp; omega),bind_ok (inBounds_some _ d),hs]

theorem placeEntry_cons_run (hg : Geometry g) {d : Device} (hf : g.Fits d.image) {new e : DirEntry}
    (hnew : EntryFits new) {b stop : ℕ} (rest : List ℕ) {es : List (ℕ × DirEntry)}
    {entry : Option DirEntry} (hb0 : b ≠ 0) (hb : b < g.superBlock.sBlocksCount)
    (h : Segment (g.blockAt d.image b) 0 es stop)
    (hs : stop = g.blockSize ∨
      (stop+4 ≤ g.blockSize ∧ num (g.blockAt d.image b).byte stop 4 = 0))
    (he : (es.getLast?.map Prod.snd).or entry = some e) {off : ℕ}
    (hoff : off = if stop = g.blockSize then stop-e.recLen else stop+1) (hes : stop = g.blockSize → es ≠ []) :
    (placeEntry g new (b::rest) entry).run d =
      if off+padTo4Bytes (8+e.nameLen)+new.recLen < g.blockSize then
        .ok () ⟨g.setBlock d.image b (insertEntry (g.blockAt d.image b) (off+4)
          (padTo4Bytes (8+e.nameLen)) (off+padTo4Bytes (8+e.nameLen)) new),d.out ++ writeEvents g b⟩
      else (placeEntry g new rest (some e)).run d := by
  have hlast := @findLastEntry_run _ _ _ _ h hs g.blockSize 0 entry (by rw [blockAt_size]; omega) d
  rw [blockAt_size,he] at hlast
  have hoff' : ((stop:ℤ)-(if stop = g.blockSize then
      (es.getLast?.map fun p => (p.2.recLen:ℤ)).getD 0 else -1)).toNat = off := by
    rw [hoff]
    by_cases hstop : stop = g.blockSize
    · rw [if_pos hstop,if_pos hstop]
      obtain ⟨p,hp⟩ : ∃ p, es.getLast? = some p := by
        cases hl : es.getLast? with
        | none => exact absurd (List.getLast?_eq_none_iff.mp hl) (hes hstop)
        | some p => exact ⟨p,rfl⟩
      rw [hp] at he ⊢
      simp only [Option.map_some,Option.some_or,Option.some.injEq] at he
      simp only [Option.map_some,Option.getD_some,he]
      omega
    · rw [if_neg hstop,if_neg hstop]
      omega
  rw [placeEntry,if_neg hb0,bind_ok (block_run hg.sizes hf hb),bind_ok hlast]
  dsimp only
  rw [hoff']
  have hrec := hnew.recLen_eq
  have hpad := le_padTo4Bytes (8+new.nameLen)
  have hpad' := le_padTo4Bytes (8+e.nameLen)
  rw [show dirEntryPrefixLen = 8 from rfl]
  by_cases hroom : off+padTo4Bytes (8+e.nameLen)+new.recLen < g.blockSize
  · rw [if_pos hroom,if_pos hroom,writeNumberIntoBlock_eq (by rw [blockAt_size]; omega),
      bind_ok (inBounds_some _ d),writeNewEntry_run hg hnew hb (blockAt_size b) (by omega)]
  · rw [if_neg hroom,if_neg hroom]

/-- Where the program takes the last entry of a block to begin. -/
def tailOffset (b : Buf) : ℕ :=
  match (entriesOf b).getLast? with
  | some (o,e) => if o+e.recLen = b.size then o else o+e.recLen+1
  | none => 1

/-- The last entry of a block; in a block without one, the last that was read before. -/
def tailEntry (b : Buf) (entry : Option DirEntry) : Option DirEntry :=
  ((entriesOf b).getLast?.map Prod.snd).or entry

/-- The program's test whether a block can take the entry `new` behind its last entry `e`. -/
def Takes (new : DirEntry) (b : Buf) (e : DirEntry) : Prop :=
  tailOffset b+padTo4Bytes (8+e.nameLen)+new.recLen < b.size

instance (new : DirEntry) (b : Buf) (e : DirEntry) : Decidable (Takes new b e) :=
  inferInstanceAs (Decidable (_ < _))

/-- The first block that passes the test. -/
def Globals.firstFit (g : Globals) (img : Buf) (new : DirEntry) : List ℕ → Option DirEntry → Option ℕ
  | [], _ => none
  | b::bs, entry =>
    match tailEntry (g.blockAt img b) entry with
    | none => none
    | some e => if Takes new (g.blockAt img b) e then some b else g.firstFit img new bs (some e)

section Tail

variable {b : Buf} {entry : Option DirEntry} {e : DirEntry} {stop : ℕ}

theorem tailOffset_eq (h : Segment b 0 (entriesOf b) stop) (hb : 0 < b.size)
    (he : tailEntry b entry = some e) :
    tailOffset b = if stop = b.size then stop-e.recLen else stop+1 := by
  unfold tailOffset
  unfold tailEntry at he
  cases hl : (entriesOf b).getLast? with
  | none =>
    rw [List.getLast?_eq_none_iff.mp hl] at h
    cases h
    dsimp only
    rw [if_neg hb.ne]
  | some p =>
    obtain ⟨o,e'⟩ := p
    rw [hl] at he
    obtain rfl : e' = e := by simpa using he
    obtain ⟨init,hinit⟩ := List.getLast?_eq_some_iff.mp hl
    rw [hinit] at h
    obtain ⟨_,_,_,_,hend⟩ := h.snoc_inv
    dsimp only at hend ⊢
    rw [hend]
    split <;> omega

theorem LiveBlock.tail (h : LiveBlock b) (hb : 0 < b.size) (he : tailEntry b entry = some e) :
    ∃ init, entriesOf b = init++[(tailOffset b,e)] := by
  have hseg := h.segment
  rw [tailOffset_eq hseg hb he,if_pos rfl]
  unfold tailEntry at he
  cases hl : (entriesOf b).getLast? with
  | none =>
    rw [List.getLast?_eq_none_iff.mp hl] at hseg
    generalize b.size = n at hseg hb
    cases hseg
    exact absurd rfl hb.ne
  | some p =>
    obtain ⟨o,e'⟩ := p
    rw [hl] at he
    obtain rfl : e' = e := by simpa using he
    obtain ⟨init,hinit⟩ := List.getLast?_eq_some_iff.mp hl
    rw [hinit] at hseg
    obtain ⟨_,_,_,_,hend⟩ := hseg.snoc_inv
    dsimp only at hend
    refine ⟨init,hinit.trans ?_⟩
    rw [← hend,Nat.add_sub_cancel]

/-- The block after the entry was put where the program takes the tail to be. -/
def putEntry (new : DirEntry) (b : Buf) (e : DirEntry) : Buf :=
  insertEntry b (tailOffset b+4) (padTo4Bytes (8+e.nameLen)) (tailOffset b+padTo4Bytes (8+e.nameLen)) new

variable {new : DirEntry}

theorem putEntry_live (hnew : EntryFits new) (hs : b.size < 2^16) (h : LiveBlock b) (hb : 0 < b.size)
    (he : tailEntry b entry = some e) (ht : Takes new b e) : Extended new b (putEntry new b e) := by
  obtain ⟨init,hinit⟩ := h.tail hb he
  have hseg := h.segment
  rw [hinit] at hseg
  obtain ⟨hlive,hent⟩ := Segment.liveBlock (b := putEntry new b e)
    (by unfold putEntry; rw [insertEntry_size]; exact insertEntry_segment hseg hnew ht hs)
  exact ⟨init,_,e,hinit,hlive,ht,hent⟩

theorem putEntry_unused (hwf : WellFormedBlock b) (h : ¬ LiveBlock b) (hb : 0 < b.size)
    (he : tailEntry b entry = some e) : WellFormedBlock (putEntry new b e) ∧
      entriesOf (putEntry new b e) = entriesOf b := by
  obtain ⟨stop,hseg,hs⟩ := hwf.segment
  have hstop : stop ≠ b.size := by
    rintro rfl
    exact h hseg.liveBlock.1
  obtain ⟨hle,hz⟩ := hs.resolve_left hstop
  have hreal := le_padTo4Bytes (8+e.nameLen)
  obtain ⟨hseg',hz'⟩ := @insertEntry_unused b _ new stop (padTo4Bytes (8+e.nameLen)) hseg hz (by omega)
  unfold putEntry
  rw [tailOffset_eq hseg hb he,if_neg hstop]
  exact (hseg'.chain (Or.inr ⟨by rw [insertEntry_size]; exact hle,hz'⟩)).wellFormed.symm

end Tail

theorem placeEntry_test_run (hg : Geometry g) {d : Device} (hf : g.Fits d.image) {new e : DirEntry}
    (hnew : EntryFits new) {b : ℕ} (rest : List ℕ) {entry : Option DirEntry} (hb0 : b ≠ 0)
    (hb : b < g.superBlock.sBlocksCount) (hwf : WellFormedBlock (g.blockAt d.image b))
    (he : tailEntry (g.blockAt d.image b) entry = some e) :
    (placeEntry g new (b::rest) entry).run d =
      if Takes new (g.blockAt d.image b) e then
        .ok () ⟨g.setBlock d.image b (putEntry new (g.blockAt d.image b) e),d.out ++ writeEvents g b⟩
      else (placeEntry g new rest (some e)).run d := by
  obtain ⟨stop,hseg,hs⟩ := hwf.segment
  have htail := tailOffset_eq hseg hg.block_pos he
  rw [blockAt_size] at hs htail
  refine placeEntry_cons_run hg hf hnew rest hb0 hb hseg hs he htail fun hstop hnil => ?_
  rw [hnil,hstop] at hseg
  generalize hn : g.blockSize = n at hseg
  cases hseg
  exact absurd hn hg.block_pos.ne'

theorem placeEntry_undefined_run (hg : Geometry g) {d : Device} (hf : g.Fits d.image) {new : DirEntry}
    {b : ℕ} (rest : List ℕ) {entry : Option DirEntry} (hb0 : b ≠ 0) (hb : b < g.superBlock.sBlocksCount)
    (hwf : WellFormedBlock (g.blockAt d.image b)) (he : tailEntry (g.blockAt d.image b) entry = none) :
    (placeEntry g new (b::rest) entry).run d = .error .undefined d := by
  obtain ⟨stop,hseg,hs⟩ := hwf.segment
  have hlast := @findLastEntry_run _ _ _ _ hseg hs g.blockSize 0 entry (by rw [blockAt_size]; omega) d
  unfold tailEntry at he
  rw [blockAt_size,he] at hlast
  rw [placeEntry,if_neg hb0,bind_ok (block_run hg.sizes hf hb),bind_ok hlast]
  rfl

/-- The inodes reported as unreferenced. -/
def reported (out : List Event) : List ℕ :=
  out.filterMap fun e => match e with
    | .unreferencedInode i => some i
    | _ => none

@[simp] theorem reported_append (l m : List Event) : reported (l++m) = reported l ++ reported m :=
  List.filterMap_append

@[simp] theorem reported_writeEvents (b : ℕ) : reported (writeEvents g b) = [] := rfl

/-- One block of `bs` has grown by the entry `new`, or nothing was written. -/
def Placed (g : Globals) (img : Buf) (new : DirEntry) (bs : List ℕ) (img' : Buf) : Prop :=
  img' = img ∨ ∃ b ∈ bs, ∃ blk, blk.size = g.blockSize ∧ img' = g.setBlock img b blk ∧
    Grown new (g.blockAt img b) blk

/-- One block of `bs` has the entry `new` as its new last entry. -/
def PlacedLast (g : Globals) (img : Buf) (new : DirEntry) (bs : List ℕ) (img' : Buf) : Prop :=
  ∃ b ∈ bs, ∃ blk, blk.size = g.blockSize ∧ img' = g.setBlock img b blk ∧
    Extended new (g.blockAt img b) blk

/-- One of the blocks has more than `n` bytes to spare behind its last entry, and neither it nor a
block in front of it has an unused entry. -/
def Roomy (g : Globals) (img : Buf) (bs : List ℕ) (n : ℕ) : Prop :=
  ∃ pre b post, bs = pre++b::post ∧ (∀ c ∈ pre++[b], LiveBlock (g.blockAt img c)) ∧
    n < lastSlack (g.blockAt img b)

theorem Roomy.mono {img : Buf} {bs : List ℕ} {m n : ℕ} (h : Roomy g img bs n) (hm : m ≤ n) :
    Roomy g img bs m := by
  obtain ⟨pre,b,post,hbs,hlive,hn⟩ := h
  exact ⟨pre,b,post,hbs,hlive,by omega⟩

theorem Roomy.congr {img img' : Buf} {bs : List ℕ} {n : ℕ} (h : Roomy g img bs n)
    (hb : ∀ b ∈ bs, g.blockAt img' b = g.blockAt img b) : Roomy g img' bs n := by
  obtain ⟨pre,b,post,rfl,hlive,hn⟩ := h
  refine ⟨pre,b,post,rfl,fun c hc => ?_,?_⟩
  · rw [hb c (by simp only [List.mem_append,List.mem_singleton] at hc; simp; tauto)]
    exact hlive c hc
  · rw [hb b (by simp)]
    exact hn

theorem Roomy.cons_inv {img : Buf} {b : ℕ} {bs : List ℕ} {n : ℕ} (h : Roomy g img (b::bs) n) :
    LiveBlock (g.blockAt img b) ∧ (n < lastSlack (g.blockAt img b) ∨ Roomy g img bs n) := by
  obtain ⟨pre,c,post,hbs,hlive,hn⟩ := h
  cases pre with
  | nil =>
    obtain ⟨rfl,rfl⟩ := List.cons.inj hbs
    exact ⟨hlive b (by simp),Or.inl hn⟩
  | cons a pre =>
    obtain ⟨rfl,rfl⟩ := List.cons.inj hbs
    exact ⟨hlive b (by simp),Or.inr ⟨pre,c,post,rfl,fun x hx => hlive x (by simpa using Or.inr (by simpa using hx)),hn⟩⟩

theorem PlacedLast.roomy (hg : Geometry g) {img img' : Buf} {new : DirEntry} {bs : List ℕ} {n : ℕ}
    (h : PlacedLast g img new bs img') (hnew : EntryFits new) (hr : Roomy g img bs (new.recLen+n)) :
    Roomy g img' bs n := by
  obtain ⟨b,_,blk,hs,rfl,hext⟩ := h
  obtain ⟨pre,c,post,hbs,hlive,hn⟩ := hr
  have hslack := hext.lastSlack_eq hnew (by rw [hs,blockAt_size])
  have hself : g.blockAt (g.setBlock img b blk) b = blk := blockAt_setBlock_self hs
  refine ⟨pre,c,post,hbs,fun x hx => ?_,?_⟩
  · by_cases hxb : x = b
    · rw [hxb,hself]
      obtain ⟨_,_,_,_,hlive',_⟩ := hext
      exact hlive'
    · rw [blockAt_setBlock_ne hg.sizes hs hxb]
      exact hlive x hx
  · by_cases hcb : c = b
    · rw [hcb] at hn ⊢
      rw [hself,hslack]
      omega
    · rw [blockAt_setBlock_ne hg.sizes hs hcb]
      omega

/-- What an entry for an inode takes at most: ten digits behind the head. -/
def entrySizeMax : ℕ := 20

/-- The first blocks, up to one that has an unused entry at most, have together `n` bytes to spare
behind their last entries, where in each block so many are not counted as an entry may take. -/
def Room (g : Globals) (img : Buf) (bs : List ℕ) (n : ℕ) : Prop :=
  ∃ pre post, bs = pre++post ∧ (∀ c ∈ pre, LiveBlock (g.blockAt img c)) ∧
    n ≤ (pre.map fun c => lastSlack (g.blockAt img c)-entrySizeMax).sum

theorem Room.mono {img : Buf} {bs : List ℕ} {m n : ℕ} (h : Room g img bs n) (hm : m ≤ n) :
    Room g img bs m := by
  obtain ⟨pre,post,hbs,hlive,hn⟩ := h
  exact ⟨pre,post,hbs,hlive,hm.trans hn⟩

theorem Room.congr {img img' : Buf} {bs : List ℕ} {n : ℕ} (h : Room g img bs n)
    (hb : ∀ b ∈ bs, g.blockAt img' b = g.blockAt img b) : Room g img' bs n := by
  obtain ⟨pre,post,rfl,hlive,hn⟩ := h
  have hpre : ∀ c ∈ pre, g.blockAt img' c = g.blockAt img c := fun c hc => hb c (by simp [hc])
  refine ⟨pre,post,rfl,fun c hc => by rw [hpre c hc]; exact hlive c hc,hn.trans_eq ?_⟩
  exact congrArg List.sum (List.map_congr_left fun c hc => by rw [hpre c hc])

/-- Where there is room at all, one of the blocks takes an entry. -/
theorem Room.roomy {img : Buf} {bs : List ℕ} {s n : ℕ} (h : Room g img bs (s+n)) (hpos : 0 < s)
    (hs : s ≤ entrySizeMax) : Roomy g img bs s := by
  obtain ⟨pre,post,rfl,hlive,hn⟩ := h
  obtain ⟨c,hc,hslack⟩ : ∃ c ∈ pre, 0 < lastSlack (g.blockAt img c)-entrySizeMax := by
    by_contra hno
    push Not at hno
    have hzero : (pre.map fun c => lastSlack (g.blockAt img c)-entrySizeMax).sum = 0 :=
      List.sum_eq_zero fun k hk => by
        obtain ⟨c,hc,rfl⟩ := List.mem_map.mp hk
        exact Nat.le_zero.mp (hno c hc)
    omega
  obtain ⟨front,back,rfl⟩ := List.append_of_mem hc
  exact ⟨front,c,back++post,by simp,fun a ha => hlive a (by
    simp only [List.mem_append,List.mem_cons,List.not_mem_nil,or_false] at ha ⊢
    tauto),by omega⟩

theorem sum_le_sum_add {bs : List ℕ} {f f' : ℕ → ℕ} {b r : ℕ} (hnd : bs.Nodup)
    (hne : ∀ c ∈ bs, c ≠ b → f' c = f c) (hb : f b ≤ f' b+r) :
    (bs.map f).sum ≤ (bs.map f').sum+r := by
  induction bs with
  | nil => exact Nat.zero_le _
  | cons c bs ih =>
    obtain ⟨hc,hnd⟩ := List.nodup_cons.mp hnd
    simp only [List.map_cons,List.sum_cons]
    by_cases hcb : c = b
    · subst hcb
      have hsame : bs.map f' = bs.map f := List.map_congr_left fun a ha =>
        hne a (List.mem_cons_of_mem _ ha) (by rintro rfl; exact hc ha)
      rw [hsame]
      omega
    · have hrest := ih hnd fun a ha => hne a (List.mem_cons_of_mem _ ha)
      rw [hne c (by simp) hcb]
      omega

theorem PlacedLast.room (hg : Geometry g) {img img' : Buf} {new : DirEntry} {bs : List ℕ} {n : ℕ}
    (h : PlacedLast g img new bs img') (hnew : EntryFits new) (hnd : bs.Nodup)
    (hr : Room g img bs (new.recLen+n)) : Room g img' bs n := by
  obtain ⟨b,_,blk,hs,rfl,hext⟩ := h
  obtain ⟨pre,post,hbs,hlive,hn⟩ := hr
  have hslack := hext.lastSlack_eq hnew (by rw [hs,blockAt_size])
  have hself : g.blockAt (g.setBlock img b blk) b = blk := blockAt_setBlock_self hs
  have hother : ∀ c, c ≠ b → g.blockAt (g.setBlock img b blk) c = g.blockAt img c := fun c hc =>
    blockAt_setBlock_ne hg.sizes hs hc
  refine ⟨pre,post,hbs,fun c hc => ?_,?_⟩
  · by_cases hcb : c = b
    · rw [hcb,hself]
      obtain ⟨_,_,_,_,hlive',_⟩ := hext
      exact hlive'
    · rw [hother c hcb]
      exact hlive c hc
  · have hle := @sum_le_sum_add pre (fun c => lastSlack (g.blockAt img c)-entrySizeMax)
      (fun c => lastSlack (g.blockAt (g.setBlock img b blk) c)-entrySizeMax) b new.recLen
      (List.Nodup.of_append_left (hbs ▸ hnd)) (fun c _ hc => by rw [hother c hc]) (by
        rw [hself,hslack]
        omega)
    omega

theorem Roomy.firstFit (hg : Geometry g) {img : Buf} {bs : List ℕ} {new : DirEntry}
    (h : Roomy g img bs new.recLen) (entry : Option DirEntry) :
    ∃ b, g.firstFit img new bs entry = some b ∧ LiveBlock (g.blockAt img b) := by
  induction bs generalizing entry with
  | nil =>
    obtain ⟨pre,b,post,h,_⟩ := h
    simp at h
  | cons b bs ih =>
    obtain ⟨hlive,hroom⟩ := h.cons_inv
    have hpos : 0 < (g.blockAt img b).size := hg.block_pos
    obtain ⟨e,he⟩ : ∃ e, tailEntry (g.blockAt img b) entry = some e := by
      cases hl : (entriesOf (g.blockAt img b)).getLast? with
      | some p => exact ⟨p.2,by rw [tailEntry,hl]; rfl⟩
      | none =>
        have hseg := hlive.segment
        rw [List.getLast?_eq_none_iff.mp hl] at hseg
        generalize (g.blockAt img b).size = n at hseg hpos
        cases hseg
        exact absurd rfl hpos.ne
    rw [Globals.firstFit,he]
    dsimp only
    by_cases ht : Takes new (g.blockAt img b) e
    · rw [if_pos ht]
      exact ⟨b,rfl,hlive⟩
    · rw [if_neg ht]
      refine ih (hroom.resolve_left fun hslack => ht ?_) (some e)
      obtain ⟨init,hinit⟩ := hlive.tail hpos he
      rw [lastSlack_concat hinit] at hslack
      unfold Takes
      omega

theorem placeEntry_fits (hg : Geometry g) {d : Device} (hf : g.Fits d.image) {new : DirEntry}
    (hnew : EntryFits new) (blocks : List ℕ) (entry : Option DirEntry)
    (hwf : ∀ b ∈ blocks.takeWhile (· ≠ 0), b < g.superBlock.sBlocksCount ∧
      WellFormedBlock (g.blockAt d.image b)) {b : ℕ}
    (hfit : g.firstFit d.image new (blocks.takeWhile (· ≠ 0)) entry = some b) :
    b ∈ blocks.takeWhile (· ≠ 0) ∧ ∃ e last, tailEntry (g.blockAt d.image b) last = some e ∧
      Takes new (g.blockAt d.image b) e ∧ (placeEntry g new blocks entry).run d =
        .ok () ⟨g.setBlock d.image b (putEntry new (g.blockAt d.image b) e),d.out ++ writeEvents g b⟩ := by
  induction blocks generalizing entry with
  | nil => cases hfit
  | cons c rest ih =>
    by_cases hc0 : c = 0
    · rw [List.takeWhile_cons_of_neg (by simpa using hc0)] at hfit
      cases hfit
    · rw [List.takeWhile_cons_of_pos (by simpa using hc0)] at hwf hfit ⊢
      obtain ⟨hc,hchain⟩ := hwf c (by simp)
      rw [Globals.firstFit] at hfit
      cases he : tailEntry (g.blockAt d.image c) entry with
      | none =>
        rw [he] at hfit
        cases hfit
      | some e =>
        rw [he] at hfit
        dsimp only at hfit
        rw [placeEntry_test_run hg hf hnew rest hc0 hc hchain he]
        by_cases ht : Takes new (g.blockAt d.image c) e
        · rw [if_pos ht] at hfit
          cases hfit
          exact ⟨by simp,e,entry,he,ht,if_pos ht⟩
        · rw [if_neg ht] at hfit ⊢
          obtain ⟨hmem,hrun⟩ := ih (some e) (fun a ha => hwf a (List.mem_cons_of_mem _ ha)) hfit
          exact ⟨List.mem_cons_of_mem _ hmem,hrun⟩

theorem placeEntry_full (hg : Geometry g) {d : Device} (hf : g.Fits d.image) {new : DirEntry}
    (hnew : EntryFits new) (blocks : List ℕ) (entry : Option DirEntry)
    (hwf : ∀ b ∈ blocks.takeWhile (· ≠ 0), b < g.superBlock.sBlocksCount ∧
      WellFormedBlock (g.blockAt d.image b))
    (hfit : g.firstFit d.image new (blocks.takeWhile (· ≠ 0)) entry = none) :
    (placeEntry g new blocks entry).run d = .ok () d ∨
      (placeEntry g new blocks entry).run d = .error .undefined d ∧ entry = none ∧
        ∃ b ∈ (blocks.takeWhile (· ≠ 0)).head?, entriesOf (g.blockAt d.image b) = [] := by
  induction blocks generalizing entry with
  | nil => exact Or.inl rfl
  | cons c rest ih =>
    by_cases hc0 : c = 0
    · rw [placeEntry,if_pos hc0]
      exact Or.inl rfl
    · rw [List.takeWhile_cons_of_pos (by simpa using hc0)] at hwf hfit ⊢
      obtain ⟨hc,hchain⟩ := hwf c (by simp)
      rw [Globals.firstFit] at hfit
      cases he : tailEntry (g.blockAt d.image c) entry with
      | none =>
        refine Or.inr ⟨placeEntry_undefined_run hg hf rest hc0 hc hchain he,?_,c,by simp,?_⟩
        all_goals
          unfold tailEntry at he
          rw [Option.or_eq_none_iff] at he
        · exact he.2
        · simpa using he.1
      | some e =>
        rw [he] at hfit
        dsimp only at hfit
        rw [placeEntry_test_run hg hf hnew rest hc0 hc hchain he]
        by_cases ht : Takes new (g.blockAt d.image c) e
        · rw [if_pos ht] at hfit
          cases hfit
        · rw [if_neg ht] at hfit ⊢
          rcases ih (some e) (fun a ha => hwf a (List.mem_cons_of_mem _ ha)) hfit with h | ⟨_,h,_⟩
          · exact Or.inl h
          · cases h

theorem placeEntry_run (hg : Geometry g) (hbs : g.blockSize < 2^16) {d : Device}
    (hf : g.Fits d.image) {new : DirEntry} (hnew : EntryFits new) (blocks : List ℕ)
    (entry : Option DirEntry) (hwf : ∀ b ∈ blocks.takeWhile (· ≠ 0), b < g.superBlock.sBlocksCount ∧
      WellFormedBlock (g.blockAt d.image b))
    (hentry : entry = none → ∀ b ∈ (blocks.takeWhile (· ≠ 0)).head?,
      entriesOf (g.blockAt d.image b) ≠ []) :
    ∃ d', (placeEntry g new blocks entry).run d = .ok () d' ∧
      Placed g d.image new (blocks.takeWhile (· ≠ 0)) d'.image ∧
      (Roomy g d.image (blocks.takeWhile (· ≠ 0)) new.recLen →
        PlacedLast g d.image new (blocks.takeWhile (· ≠ 0)) d'.image) ∧
      reported d'.out = reported d.out := by
  cases hfit : g.firstFit d.image new (blocks.takeWhile (· ≠ 0)) entry with
  | none =>
    have hrun := (placeEntry_full hg hf hnew blocks entry hwf hfit).resolve_right
      fun ⟨_,hnone,b,hb,hnil⟩ => hentry hnone b hb hnil
    refine ⟨d,hrun,Or.inl rfl,fun hr => ?_,rfl⟩
    obtain ⟨b,hb,_⟩ := hr.firstFit hg entry
    rw [hfit] at hb
    cases hb
  | some b =>
    obtain ⟨hmem,e,last,he,ht,hrun⟩ := placeEntry_fits hg hf hnew blocks entry hwf hfit
    have hpos : 0 < (g.blockAt d.image b).size := hg.block_pos
    have hsize : (putEntry new (g.blockAt d.image b) e).size = g.blockSize := insertEntry_size
    have hext : LiveBlock (g.blockAt d.image b) →
        Extended new (g.blockAt d.image b) (putEntry new (g.blockAt d.image b) e) := fun hlive =>
      putEntry_live hnew hbs hlive hpos he ht
    refine ⟨_,hrun,Or.inr ⟨b,hmem,_,hsize,rfl,?_⟩,fun hr => ⟨b,hmem,_,hsize,rfl,hext ?_⟩,by simp⟩
    · by_cases hlive : LiveBlock (g.blockAt d.image b)
      · exact Or.inr (hext hlive)
      · exact Or.inl (putEntry_unused (hwf b hmem).2 hlive hpos he)
    · obtain ⟨c,hc,hlive⟩ := hr.firstFit hg entry
      rw [hfit] at hc
      cases hc
      exact hlive

end PlaceRun

/-- The inode named `lost+found` in the first block of the root directory. -/
def Globals.lostFound (g : Globals) (img : Buf) : Option ℕ :=
  (((g.dirEntries img rootInodeNum).headD []).find? fun p => p.2.name == lostFoundDirName).map
    fun p => p.2.inode

theorem findName_run {b : Buf} {off : ℕ} {es : List (ℕ × DirEntry)} (h : Chain b off es)
    (name : List Byte) {turns : ℕ} (ht : b.size ≤ turns+off) (d : Device) :
    (findName b.size b name turns off).run d = .ok ((es.find? fun p => p.2.name == name).map fun p =>
      { p.2 with name := p.2.name.take (sizeofInode-dirEntryPrefixLen) }) d := by
  induction h generalizing turns with
  | done => cases turns <;> simp [findName]
  | @unused off hle hz =>
    cases turns with
    | zero => omega
    | succ turns => simp [findName,readDirEntryInBlock_unused hz hle,show off < b.size by omega]
  | @live off es hn hl h ih =>
    have hle := h.le_size
    cases turns with
    | zero => omega
    | succ turns =>
      have hr := readDirEntryInBlock_live hn (by omega)
      rw [findName,if_pos (by omega),hr,bind_ok (inBounds_some _ d)]
      dsimp only
      by_cases hname : (entryAt b off).name = name
      · rw [if_pos hname,List.find?_cons_of_pos (by simpa using hname)]
        rfl
      · rw [if_neg hname,List.find?_cons_of_neg (by simpa using hname)]
        exact ih (by omega)

section Search

variable {g : Globals}

theorem dirBlocks_cons {img : Buf} {x b : ℕ} {bs : List ℕ} (h : g.dirBlocks img x = b::bs) :
    ∃ l, (g.inodeAt img x).iBlock = b::l ∧ b ≠ 0 := by
  rw [Globals.dirBlocks] at h
  cases hl : (g.inodeAt img x).iBlock with
  | nil =>
    rw [hl] at h
    cases h
  | cons c l =>
    rw [hl] at h
    by_cases hc : c = 0
    · simp [hc] at h
    · rw [List.takeWhile_cons_of_pos (by simpa using hc)] at h
      cases h
      exact ⟨l,rfl,hc⟩

/-- The first entry of a block with the given name, and as much of its name as the program copies. -/
def findIn (b : Buf) (name : List Byte) : Option DirEntry :=
  ((entriesOf b).find? fun p => p.2.name == name).map fun p =>
    { p.2 with name := p.2.name.take (sizeofInode-dirEntryPrefixLen) }

theorem searchDirEntry_first_run (hg : Geometry g) {d : Device} (hf : g.Fits d.image) {inode : Inode}
    {b : ℕ} {l : List ℕ} (hl : inode.iBlock = b::l) (hb0 : b ≠ 0) (hb : b < g.superBlock.sBlocksCount)
    (hwf : WellFormedBlock (g.blockAt d.image b)) (name : List Byte) :
    (searchDirEntry g inode name).run d = .ok (findIn (g.blockAt d.image b) name) d := by
  have hfind := @findName_run _ 0 _ hwf name g.blockSize (by rw [blockAt_size]; omega) d
  rw [blockAt_size] at hfind
  rw [searchDirEntry,hl]
  dsimp only
  rw [if_neg hb0,bind_ok (block_run hg.sizes hf hb),hfind,findIn]

theorem searchDirEntry_run (hg : Geometry g) {d : Device} (hf : g.Fits d.image)
    (hroot : DirOk g d.image rootInodeNum) (hne : g.dirBlocks d.image rootInodeNum ≠ []) :
    ∃ e, (searchDirEntry g (g.inodeAt d.image rootInodeNum) lostFoundDirName).run d = .ok e d ∧
      e.map DirEntry.inode = g.lostFound d.image := by
  obtain ⟨b,bs,hbs⟩ := List.exists_cons_of_ne_nil hne
  obtain ⟨l,hl,hb0⟩ := dirBlocks_cons hbs
  have hb : b ∈ g.dirBlocks d.image rootInodeNum := by simp [hbs]
  refine ⟨_,searchDirEntry_first_run hg hf hl hb0 (hroot.blocks_lt b hb) (hroot.wellFormed b hb)
    lostFoundDirName,?_⟩
  rw [Globals.lostFound,Globals.dirEntries,hbs,findIn]
  simp only [List.map_cons,List.headD_cons,Option.map_map]
  rfl

theorem inodeAt_setBlock_ne (hg : Geometry g) {img : Buf} {b i : ℕ} {src : Buf}
    (hs : src.size = g.blockSize) (h : b ≠ g.inodeBlock i) :
    g.inodeAt (g.setBlock img b src) i = g.inodeAt img i := by
  rw [Globals.inodeAt,blockAt_setBlock_ne hg.sizes hs h.symm,Globals.inodeAt]

theorem Placed.frame (hg : Geometry g) {img img' : Buf} {new : DirEntry} {bs : List ℕ}
    (h : Placed g img new bs img') (hf : g.Fits img) (hbs : ∀ b ∈ bs, b < g.superBlock.sBlocksCount) :
    g.Fits img' ∧ img'.size = img.size ∧ ∀ b, b ∉ bs → g.blockAt img' b = g.blockAt img b := by
  rcases h with rfl | ⟨b,hb,blk,hs,rfl,_⟩
  · exact ⟨hf,rfl,fun _ _ => rfl⟩
  · exact ⟨setBlock_fits hg.sizes hf (hbs b hb) hs,setBlock_size hg.sizes hf (hbs b hb) hs,
      fun c hc => blockAt_setBlock_ne hg.sizes hs (by rintro rfl; exact hc hb)⟩

/-- The image after inode `i` is taken into the directory `L`: `L` has grown by an entry for `i`,
and the word behind the first twelve bytes of the inode's first block names `L`. -/
def Adopted (g : Globals) (img : Buf) (L i : ℕ) (img' : Buf) : Prop :=
  ∃ img₁, Placed g img (g.newEntry img i) (g.dirBlocks img L) img₁ ∧
    (Roomy g img (g.dirBlocks img L) (g.newEntry img i).recLen →
      PlacedLast g img (g.newEntry img i) (g.dirBlocks img L) img₁) ∧
    img' = g.setBlock img₁ ((g.inodeAt img i).iBlock.getD 0 0)
      ((g.blockAt img₁ ((g.inodeAt img i).iBlock.getD 0 0)).putNum firstEntryLen L 4)

theorem addToLostFound_run (hg : Geometry g) (hbs : g.blockSize < 2^16) {d : Device}
    (hf : g.Fits d.image) (hroot : DirOk g d.image rootInodeNum)
    (hne : g.dirBlocks d.image rootInodeNum ≠ []) {L i : ℕ} (hL : g.lostFound d.image = some L)
    (hok : DirOk g d.image L) (hfirst : ∀ b ∈ (g.dirBlocks d.image L).head?,
      entriesOf (g.blockAt d.image b) ≠ [])
    (htable : ∀ b ∈ g.dirBlocks d.image L, b ≠ g.inodeBlock i) (h1 : 1 ≤ i)
    (hi : i ≤ g.superBlock.sInodesCount)
    (hblock : (g.inodeAt d.image i).iBlock.getD 0 0 < g.superBlock.sBlocksCount) :
    ∃ d', (addToLostFound g i).run d = .ok none d' ∧ Adopted g d.image L i d'.image ∧
      reported d'.out = reported d.out := by
  have h12 : firstEntryLen+4 ≤ g.blockSize := by
    have h₁ := hg.sector_dvd
    have h₂ := Nat.le_of_dvd hg.block_pos h₁
    simp only [sectorSizeBytes] at h₂
    simp only [firstEntryLen]
    omega
  obtain ⟨e,hsearch,he⟩ := searchDirEntry_run hg hf hroot hne
  rw [hL] at he
  cases e with
  | none => cases he
  | some e =>
    have heL : e.inode = L := by simpa using he
    have hlt := hg.inodesCount_lt
    obtain ⟨d₁,hplace,hplaced,hroomy,hrep⟩ := placeEntry_run hg hbs hf
      (@newEntry_fits g d.image i h1 (by omega)) (g.inodeAt d.image L).iBlock none
      (fun b hb => ⟨hok.blocks_lt b hb,hok.wellFormed b hb⟩) fun _ => hfirst
    have hframe := hplaced.frame hg hf hok.blocks_lt
    have hinode : g.inodeAt d₁.image i = g.inodeAt d.image i := by
      rw [Globals.inodeAt,hframe.2.2 _ (fun hmem => htable _ hmem rfl),Globals.inodeAt]
    obtain ⟨src,hsrc⟩ : ∃ src, src = (g.blockAt d₁.image ((g.inodeAt d.image i).iBlock.getD 0
      0)).putNum firstEntryLen L 4 := ⟨_,rfl⟩
    have hsize : src.size = g.blockSize := by rw [hsrc,Buf.putNum_size,blockAt_size]
    have hw := write_whole_run hg (d := d₁) hblock hsize
    refine ⟨⟨g.setBlock d₁.image ((g.inodeAt d.image i).iBlock.getD 0 0) src,
      d₁.out ++ writeEvents g ((g.inodeAt d.image i).iBlock.getD 0 0)⟩,?_,
      ⟨d₁.image,hplaced,hroomy,by rw [← hsrc]⟩,?_⟩
    · unfold addToLostFound
      rw [bind_ok (readInode_run hg hf hroot.num_pos hroot.num_le),bind_ok hsearch]
      dsimp only
      rw [heL,bind_ok (readInode_run hg hf hok.num_pos hok.num_le),
        bind_ok (createNewEntry_run hg hf h1 hi),bind_ok hplace,
        bind_ok (readInode_run hg hframe.1 h1 hi),hinode,bind_ok (block_run hg.sizes hframe.1 hblock),
        writeNumberIntoBlock_eq (by rw [blockAt_size]; exact h12),bind_ok (inBounds_some _ d₁),← hsrc,bind_ok hw]
      rfl
    · simp [hrep]

theorem addToLostFound_none (hg : Geometry g) {d : Device} (hf : g.Fits d.image)
    (hroot : DirOk g d.image rootInodeNum) (hne : g.dirBlocks d.image rootInodeNum ≠ [])
    (hL : g.lostFound d.image = none) (i : ℕ) : ∃ d', (addToLostFound g i).run d = .ok (some (-1)) d' ∧
      d'.image = d.image ∧ reported d'.out = reported d.out := by
  obtain ⟨e,hsearch,he⟩ := searchDirEntry_run hg hf hroot hne
  rw [hL] at he
  cases e with
  | some e => cases he
  | none =>
    refine ⟨⟨d.image,d.out++[.cannotFindLostFound]⟩,?_,rfl,by simp [reported]⟩
    unfold addToLostFound
    rw [bind_ok (readInode_run hg hf hroot.num_pos hroot.num_le),bind_ok hsearch]
    rfl

end Search

end MyFsck
