import MyFsck.Geometry
import MyFsck.Unfolding
import Mathlib.Data.List.TakeWhile
import Mathlib.Order.Interval.Finset.Nat

/-! Directories as the scans see them: the entries of a well-formed block, the entries of a
directory, and the scanning loops as folds over these entries. -/
namespace MyFsck

open ByteBuffer ErrorState

def nameAt (b : Buf) (pos : ℕ) : ℕ → List Byte
  | 0 => []
  | n+1 => if b.byte pos = 0 then [] else b.byte pos :: nameAt b (pos+1) n

def entryAt (b : Buf) (off : ℕ) : DirEntry where
  inode := num b.byte off 4
  recLen := num b.byte (off+4) 2
  nameLen := num b.byte (off+6) 1
  fileType := num b.byte (off+7) 1
  name := nameAt b (off+8) (num b.byte (off+6) 1)

theorem copyName_eq {b : Buf} {pos n : ℕ} (h : pos+n ≤ b.size) :
    copyName b pos n = some (nameAt b pos n) := by
  induction n generalizing pos with
  | zero => rfl
  | succ n ih =>
    have h₁ : b.load pos = some (b.byte pos) := Buf.load_eq (by omega)
    simp only [copyName,nameAt,h₁,Option.bind_eq_bind,Option.bind_some,ih (by omega : pos+1+n ≤ b.size)]
    split <;> rfl

theorem nameAt_congr {b b' : Buf} {pos n : ℕ}
    (h : ∀ i, pos ≤ i → i < pos+n → b.byte i = b'.byte i) : nameAt b pos n = nameAt b' pos n := by
  induction n generalizing pos with
  | zero => rfl
  | succ n ih =>
    have hrest := @ih (pos+1) fun i hi hlt => h i (by omega) (by omega)
    simp only [nameAt,h pos le_rfl (by omega),hrest]

theorem entryAt_congr {b b' : Buf} {off : ℕ}
    (h : ∀ i, off ≤ i → i < off+8+(entryAt b off).nameLen → b.byte i = b'.byte i) :
    entryAt b off = entryAt b' off := by
  have field : ∀ p n, p+n ≤ 8 → num b.byte (off+p) n = num b'.byte (off+p) n := fun p n hp =>
    num_congr fun k _ => h _ (by omega) (by omega)
  have h0 := field 0 4 (by omega)
  rw [Nat.add_zero] at h0
  have hlen := field 6 1 (by omega)
  have hname : nameAt b (off+8) (num b'.byte (off+6) 1) = nameAt b' (off+8) (num b'.byte (off+6) 1) :=
    nameAt_congr fun i hi hlt => h i (by omega) (by
      rw [← hlen] at hlt
      exact hlt)
  simp only [entryAt,h0,field 4 2 (by omega),hlen,field 7 1 (by omega),hname]

theorem readDirEntryInBlock_live {b : Buf} {off : ℕ} (hn : num b.byte off 4 ≠ 0)
    (h : off+8+(entryAt b off).nameLen ≤ b.size) :
    readDirEntryInBlock b off = some (some (entryAt b off)) := by
  have hl : off+8+num b.byte (off+6) 1 ≤ b.size := h
  have h₀ : parse b off 4 = some (num b.byte off 4) := parse_eq (by norm_num) (by omega)
  have h₁ : parse b (off+4) 2 = some (num b.byte (off+4) 2) := parse_eq (by norm_num) (by omega)
  have h₂ : parse b (off+6) 1 = some (num b.byte (off+6) 1) := parse_eq (by norm_num) (by omega)
  have h₃ : parse b (off+7) 1 = some (num b.byte (off+7) 1) := parse_eq (by norm_num) (by omega)
  unfold readDirEntryInBlock
  rw [h₀,Option.bind_eq_bind,Option.bind_some,if_neg hn,h₁,h₂,h₃]
  simp only [Option.bind_some,copyName_eq hl]
  rfl

theorem readDirEntryInBlock_unused {b : Buf} {off : ℕ} (hn : num b.byte off 4 = 0)
    (h : off+4 ≤ b.size) : readDirEntryInBlock b off = some none := by
  unfold readDirEntryInBlock
  rw [parse_eq (by norm_num) h]
  simp [hn]

/-- The entries a scan from `off` on meets, each with its offset. It ends at the end of the block
or at an unused entry. -/
inductive Chain (b : Buf) : ℕ → List (ℕ × DirEntry) → Prop
  | done : Chain b b.size []
  | unused {off : ℕ} : off+4 ≤ b.size → num b.byte off 4 = 0 → Chain b off []
  | live {off : ℕ} {es : List (ℕ × DirEntry)} : num b.byte off 4 ≠ 0 →
      8+(entryAt b off).nameLen ≤ (entryAt b off).recLen →
      Chain b (off+(entryAt b off).recLen) es → Chain b off ((off,entryAt b off)::es)

namespace Chain

variable {b : Buf}

theorem le_size {off : ℕ} {es : List (ℕ × DirEntry)} (h : Chain b off es) : off ≤ b.size := by
  induction h with
  | done => exact le_rfl
  | unused h _ => omega
  | live _ _ _ ih => omega

theorem functional {off : ℕ} {es es' : List (ℕ × DirEntry)} (h : Chain b off es)
    (h' : Chain b off es') : es = es' := by
  induction h generalizing es' with
  | done =>
    cases h' with
    | done => rfl
    | unused h _ => omega
    | live _ hl h => have := h.le_size; omega
  | unused h hz =>
    cases h' with
    | done => omega
    | unused _ _ => rfl
    | live hn _ _ => exact absurd hz hn
  | live hn hl h ih =>
    cases h' with
    | done => have := h.le_size; omega
    | unused _ hz => exact absurd hz hn
    | live _ _ h' => rw [ih h']

theorem inode_pos {off : ℕ} {es : List (ℕ × DirEntry)} (h : Chain b off es) :
    ∀ p ∈ es, 1 ≤ p.2.inode := by
  induction h with
  | done => simp
  | unused _ _ => simp
  | live hn _ _ ih =>
    intro p hp
    rcases List.mem_cons.mp hp with rfl | hp
    · exact Nat.pos_of_ne_zero hn
    · exact ih p hp

theorem entry_in {off : ℕ} {es : List (ℕ × DirEntry)} (h : Chain b off es) :
    ∀ p ∈ es, off ≤ p.1 ∧ p.2 = entryAt b p.1 ∧ 8+p.2.nameLen ≤ p.2.recLen ∧
      p.1+p.2.recLen ≤ b.size := by
  induction h with
  | done => simp
  | unused _ _ => simp
  | @live off es hn hl h ih =>
    intro p hp
    rcases List.mem_cons.mp hp with rfl | hp
    · exact ⟨le_rfl,rfl,hl,h.le_size⟩
    · have := ih p hp
      exact ⟨by omega,this.2⟩

end Chain

/-- From `off` on, `b'` is the block `b`. -/
def AgreesFrom (off : ℕ) (b b' : Buf) : Prop := b'.size = b.size ∧ ∀ i, off ≤ i → b'.byte i = b.byte i

theorem AgreesFrom.mono {off off' : ℕ} {b b' : Buf} (h : AgreesFrom off b b') (ho : off ≤ off') :
    AgreesFrom off' b b' := ⟨h.1,fun i hi => h.2 i (by omega)⟩

theorem AgreesFrom.entryAt {off : ℕ} {b b' : Buf} (h : AgreesFrom off b b') :
    entryAt b' off = entryAt b off := (entryAt_congr fun i hi _ => (h.2 i hi).symm).symm

theorem AgreesFrom.num {off n : ℕ} {b b' : Buf} (h : AgreesFrom off b b') :
    num b'.byte off n = num b.byte off n := num_congr fun _ _ => h.2 _ (by omega)

theorem Chain.congr {b b' : Buf} {off : ℕ} {es : List (ℕ × DirEntry)} (h : Chain b off es)
    (hb : AgreesFrom off b b') : Chain b' off es := by
  induction h with
  | done =>
    rw [← hb.1]
    exact .done
  | unused hle hz => exact .unused (by rw [hb.1]; exact hle) (hb.num.trans hz)
  | live hn hl _ ih =>
    have hrest := ih (hb.mono (by omega))
    rw [← hb.entryAt] at hl hrest ⊢
    exact .live (by rwa [hb.num]) hl hrest

theorem entryAt_putNum {b : Buf} {off v : ℕ} (h : off+4 ≤ b.size) (hv : v < 2^32) :
    entryAt (b.putNum off v 4) off = { entryAt b off with inode := v } := by
  have hinode : ByteBuffer.num (b.putNum off v 4).byte off 4 = v :=
    (Buf.num_putNum h).trans (Nat.mod_eq_of_lt (by norm_num at hv ⊢; exact hv))
  have field : ∀ p n, 4 ≤ p → ByteBuffer.num (b.putNum off v 4).byte (off+p) n =
      ByteBuffer.num b.byte (off+p) n := fun p n hp => Buf.num_putNum_disjoint (by omega)
  have hname : ∀ n, nameAt (b.putNum off v 4) (off+8) n = nameAt b (off+8) n := fun n =>
    nameAt_congr fun i hi _ => Buf.putNum_byte_out (by omega)
  simp only [entryAt,hinode,field 4 2 (by omega),field 6 1 (by omega),field 7 1 (by omega),hname]

theorem Chain.setInode {b : Buf} {off o v : ℕ} {e : DirEntry} {pre rest : List (ℕ × DirEntry)}
    (h : Chain b off (pre ++ (o,e)::rest)) (hv : 0 < v) (hv' : v < 2^32) :
    Chain (b.putNum o v 4) off (pre ++ (o,{ e with inode := v })::rest) := by
  have behind : ∀ m, o+4 ≤ m → AgreesFrom m b (b.putNum o v 4) := fun m hm =>
    ⟨Buf.putNum_size _ _ _ _,fun i hi => Buf.putNum_byte_out (by omega)⟩
  generalize hes : pre ++ (o,e)::rest = es at h
  induction h generalizing pre with
  | done => cases pre <;> cases hes
  | unused _ _ => cases pre <;> cases hes
  | @live off es hn hl hrest ih =>
    have hle := hrest.le_size
    cases pre with
    | nil =>
      obtain ⟨⟨rfl,rfl⟩,rfl⟩ : (o = off ∧ e = MyFsck.entryAt b off) ∧ rest = es := by simpa using hes
      have hent := @entryAt_putNum b o v (by omega) hv'
      have hnum : ByteBuffer.num (b.putNum o v 4).byte o 4 = v := congrArg DirEntry.inode hent
      have hrest' := hrest.congr (behind _ (by omega))
      rw [List.nil_append,← hent]
      exact .live (by omega) (by rw [hent]; exact hl) (by rw [hent]; exact hrest')
    | cons p pre =>
      obtain ⟨rfl,htail⟩ : p = (off,MyFsck.entryAt b off) ∧ pre ++ (o,e)::rest = es := by
        simpa using hes
      have ho := (hrest.entry_in (o,e) (by rw [← htail]; simp)).1
      have hent : MyFsck.entryAt (b.putNum o v 4) off = MyFsck.entryAt b off :=
        (entryAt_congr fun i _ hi => (Buf.putNum_byte_out (by omega)).symm).symm
      have hnum : ByteBuffer.num (b.putNum o v 4).byte off 4 = ByteBuffer.num b.byte off 4 :=
        Buf.num_putNum_disjoint (by omega)
      have hrest' := ih htail
      rw [List.cons_append,← hent]
      rw [← hent] at hl hrest'
      exact .live (by rwa [hnum]) hl hrest'

/-- The computed list of the entries of a block. -/
def entriesFrom (b : Buf) : (turns off : ℕ) → List (ℕ × DirEntry)
  | 0, _ => []
  | turns+1, off =>
    if off < b.size ∧ num b.byte off 4 ≠ 0 then
      (off,entryAt b off) :: entriesFrom b turns (off+(entryAt b off).recLen)
    else []

def entriesOf (b : Buf) : List (ℕ × DirEntry) := entriesFrom b b.size 0

theorem Chain.eq_entriesFrom {b : Buf} {turns off : ℕ} {es : List (ℕ × DirEntry)}
    (h : Chain b off es) (ht : b.size ≤ turns+off) : es = entriesFrom b turns off := by
  induction turns generalizing off es with
  | zero =>
    cases h with
    | done => rfl
    | unused _ _ => rfl
    | live _ hl h => have := h.le_size; omega
  | succ turns ih =>
    cases h with
    | done => simp [entriesFrom]
    | unused _ hz => simp [entriesFrom,hz]
    | live hn hl h =>
      have hle := h.le_size
      have hlt : off < b.size := by omega
      rw [entriesFrom,if_pos ⟨hlt,hn⟩,← ih h (by omega)]

/-- A directory block whose entries follow one another up to the end of the block, or up to an
unused entry. -/
def WellFormedBlock (b : Buf) : Prop := Chain b 0 (entriesOf b)

theorem Chain.wellFormed {b : Buf} {es : List (ℕ × DirEntry)} (h : Chain b 0 es) :
    entriesOf b = es ∧ WellFormedBlock b := by
  have he : es = entriesOf b := h.eq_entriesFrom (by omega)
  exact ⟨he.symm,by rwa [WellFormedBlock,← he]⟩

/-- A block all of which is taken by entries in use, the last one ending at its end. -/
inductive LiveChain (b : Buf) : ℕ → List (ℕ × DirEntry) → Prop
  | done : LiveChain b b.size []
  | live {off : ℕ} {es : List (ℕ × DirEntry)} : num b.byte off 4 ≠ 0 →
      8+(entryAt b off).nameLen ≤ (entryAt b off).recLen →
      LiveChain b (off+(entryAt b off).recLen) es → LiveChain b off ((off,entryAt b off)::es)

theorem LiveChain.chain {b : Buf} {off : ℕ} {es : List (ℕ × DirEntry)} (h : LiveChain b off es) :
    Chain b off es := by
  induction h with
  | done => exact .done
  | live hn hl _ ih => exact .live hn hl ih

def LiveBlock (b : Buf) : Prop := LiveChain b 0 (entriesOf b)

theorem LiveBlock.wellFormed {b : Buf} (h : LiveBlock b) : WellFormedBlock b := h.chain

/-- The chain condition as a computation. -/
def chainCheck (b : Buf) : (turns off : ℕ) → Bool
  | 0, off => off == b.size
  | turns+1, off =>
    if off = b.size then true
    else if num b.byte off 4 = 0 then decide (off+4 ≤ b.size)
    else decide (8+(entryAt b off).nameLen ≤ (entryAt b off).recLen) &&
      chainCheck b turns (off+(entryAt b off).recLen)

theorem chain_of_check {b : Buf} {turns off : ℕ} (h : chainCheck b turns off = true) :
    Chain b off (entriesFrom b turns off) := by
  induction turns generalizing off with
  | zero =>
    obtain rfl : off = b.size := by simpa [chainCheck] using h
    exact .done
  | succ turns ih =>
    simp only [chainCheck] at h
    split at h
    · rename_i he
      subst he
      simpa [entriesFrom] using Chain.done
    · split at h
      · rename_i _ hz
        rw [entriesFrom,if_neg (by simp [hz])]
        exact .unused (by simpa using h) hz
      · rename_i _ hz
        simp only [Bool.and_eq_true,decide_eq_true_eq] at h
        have hc := ih h.2
        have hle := hc.le_size
        rw [entriesFrom,if_pos ⟨by omega,hz⟩]
        exact .live hz h.1 hc

theorem wellFormedBlock_of_check {b : Buf} (h : chainCheck b b.size 0 = true) :
    WellFormedBlock b := chain_of_check h

def liveCheck (b : Buf) : (turns off : ℕ) → Bool
  | 0, off => off == b.size
  | turns+1, off =>
    if off = b.size then true
    else decide (num b.byte off 4 ≠ 0) &&
      decide (8+(entryAt b off).nameLen ≤ (entryAt b off).recLen) &&
      liveCheck b turns (off+(entryAt b off).recLen)

theorem liveChain_of_check {b : Buf} {turns off : ℕ} (h : liveCheck b turns off = true) :
    LiveChain b off (entriesFrom b turns off) := by
  induction turns generalizing off with
  | zero =>
    obtain rfl : off = b.size := by simpa [liveCheck] using h
    exact .done
  | succ turns ih =>
    simp only [liveCheck] at h
    split at h
    · rename_i he
      subst he
      simpa [entriesFrom] using LiveChain.done
    · simp only [Bool.and_eq_true,decide_eq_true_eq] at h
      have hc := ih h.2
      have hle := hc.chain.le_size
      rw [entriesFrom,if_pos ⟨by omega,h.1.1⟩]
      exact .live h.1.1 h.1.2 hc

theorem liveBlock_of_check {b : Buf} (h : liveCheck b b.size 0 = true) : LiveBlock b :=
  liveChain_of_check h

section Loops

variable {σ : Type}

/-- The body of a scan run over a list of entries. -/
def foldEntries (body : ℕ → ℕ → DirEntry → σ → Fsck σ) : ℕ → List (ℕ × DirEntry) → σ → Fsck σ
  | _, [], s => pure s
  | count, (offset,entry)::es, s => do
    let s ← body count offset entry s
    foldEntries body (count+1) es s

theorem scanEntries_run {blk : σ → Buf} {body : ℕ → ℕ → DirEntry → σ → Fsck σ} {b : Buf}
    {off : ℕ} {es : List (ℕ × DirEntry)} (h : Chain b off es)
    (hbody : ∀ p ∈ es, ∀ count s d s' d', AgreesFrom p.1 b (blk s) →
      (body count p.1 p.2 s).run d = .ok s' d' → AgreesFrom (p.1+p.2.recLen) b (blk s'))
    (turns count : ℕ) (s : σ) (d : Device) (hs : AgreesFrom off b (blk s))
    (ht : b.size ≤ turns+off) :
    (scanEntries b.size blk body turns off count s).run d =
      (foldEntries body count es s).run d := by
  induction h generalizing turns count s d with
  | done => cases turns <;> simp [scanEntries,foldEntries]
  | @unused off hle hz =>
    cases turns with
    | zero => omega
    | succ turns =>
      have hz' : num (blk s).byte off 4 = 0 := hs.num.trans hz
      have hr := readDirEntryInBlock_unused hz' (by rw [hs.1]; exact hle)
      simp [scanEntries,foldEntries,hr,show off < b.size by omega]
  | @live off es hn hl h ih =>
    have hle := h.le_size
    cases turns with
    | zero => omega
    | succ turns =>
      have he : entryAt (blk s) off = entryAt b off := hs.entryAt
      have hn' : num (blk s).byte off 4 ≠ 0 := by rwa [hs.num]
      have hr := readDirEntryInBlock_live hn' (by rw [hs.1,he]; omega)
      rw [he] at hr
      simp only [scanEntries,foldEntries,hr,show off < b.size by omega,if_true,EStateM.run_bind,
        inBounds_some]
      cases hb : (body count off (entryAt b off) s).run d with
      | error e t => rfl
      | ok s' d' =>
        exact ih (fun p hp => hbody p (by simp [hp])) turns (count+1) s' d'
          (hbody (off,entryAt b off) (by simp) count s d s' d' hs hb) (by omega)

theorem scanEntries_const (body : ℕ → ℕ → DirEntry → σ → Fsck σ) {b : Buf}
    (h : WellFormedBlock b) (count : ℕ) (s : σ) (d : Device) :
    (scanEntries b.size (fun _ => b) body b.size 0 count s).run d =
      (foldEntries body count (entriesOf b) s).run d :=
  scanEntries_run h (fun _ _ _ _ _ _ _ _ _ => ⟨rfl,fun _ _ => rfl⟩) _ _ _ _
    ⟨rfl,fun _ _ => rfl⟩ (by omega)

/-- A loop over block pointers none of which is 0. -/
def foldBlocks (body : ℕ → ℕ → σ → Fsck σ) : ℕ → List ℕ → σ → Fsck σ
  | _, [], s => pure s
  | i, b::bs, s => do
    let s ← body i b s
    foldBlocks body (i+1) bs s

theorem forBlocks_eq (body : ℕ → ℕ → σ → Fsck σ) (i : ℕ) (l : List ℕ) (s : σ) :
    forBlocks body i l s = foldBlocks body i (l.takeWhile (· ≠ 0)) s := by
  induction l generalizing i s with
  | nil => rfl
  | cons b l ih =>
    by_cases hb : b = 0
    · simp [forBlocks,foldBlocks,hb]
    · simp [forBlocks,foldBlocks,hb,ih]

end Loops

/-- The entries a walker descends into in a block: those with `i != 0 || count >= 2`. -/
def nonDotFrom (i : ℕ) : ℕ → List (ℕ × DirEntry) → List DirEntry
  | _, [] => []
  | count, (_,e)::es =>
    if i ≠ 0 ∨ 2 ≤ count then e :: nonDotFrom i (count+1) es else nonDotFrom i (count+1) es

def nonDotBlocks : ℕ → List (List (ℕ × DirEntry)) → List DirEntry
  | _, [] => []
  | i, b::bs => nonDotFrom i 0 b ++ nonDotBlocks (i+1) bs

theorem nonDotFrom_drop (count : ℕ) (es : List (ℕ × DirEntry)) :
    nonDotFrom 0 count es = (es.drop (2-count)).map Prod.snd := by
  induction es generalizing count with
  | nil => simp [nonDotFrom]
  | cons p es ih =>
    obtain ⟨o,e⟩ := p
    by_cases hc : 2 ≤ count
    · simp [nonDotFrom,hc,ih,Nat.sub_eq_zero_of_le hc,Nat.sub_eq_zero_of_le (Nat.le_succ_of_le hc)]
    · obtain ⟨k,hk⟩ : ∃ k, 2-count = k+1 := ⟨1-count,by omega⟩
      simp [nonDotFrom,hc,ih,hk,show 2-(count+1) = k by omega]

theorem nonDotFrom_later {i : ℕ} (hi : i ≠ 0) (count : ℕ) (es : List (ℕ × DirEntry)) :
    nonDotFrom i count es = es.map Prod.snd := by
  induction es generalizing count with
  | nil => rfl
  | cons p es ih =>
    obtain ⟨o,e⟩ := p
    rw [nonDotFrom,if_pos (Or.inl hi),ih]
    rfl

namespace Globals

variable (g : Globals) (img : Buf)

/-- The blocks of a directory, up to its first zero pointer. -/
def dirBlocks (d : ℕ) : List ℕ := (g.inodeAt img d).iBlock.takeWhile (· ≠ 0)

def dirEntries (d : ℕ) : List (List (ℕ × DirEntry)) :=
  (g.dirBlocks img d).map fun b => entriesOf (g.blockAt img b)

/-- The inode numbers in the entries of a directory, one for each entry. -/
def named (d : ℕ) : List ℕ := (g.dirEntries img d).flatten.map fun p => p.2.inode

/-- All entries but the first two of the first block. -/
def nonDot (d : ℕ) : List DirEntry := nonDotBlocks 0 (g.dirEntries img d)

/-- The directories a directory leads to. -/
def subdirs (d : ℕ) : List ℕ := ((g.nonDot img d).filter dirIsDir).map DirEntry.inode

end Globals

/-- A directory whose blocks are in the file system and well formed, and whose entries name
inodes of the file system. -/
structure DirOk (g : Globals) (img : Buf) (d : ℕ) : Prop where
  num_pos : 1 ≤ d
  num_le : d ≤ g.superBlock.sInodesCount
  blocks_lt : ∀ b ∈ g.dirBlocks img d, b < g.superBlock.sBlocksCount
  wellFormed : ∀ b ∈ g.dirBlocks img d, WellFormedBlock (g.blockAt img b)
  named_le : ∀ n ∈ g.named img d, n ≤ g.superBlock.sInodesCount

/-- The same for a directory without unused entries. -/
structure LiveDir (g : Globals) (img : Buf) (d : ℕ) : Prop where
  num_pos : 1 ≤ d
  num_le : d ≤ g.superBlock.sInodesCount
  blocks_lt : ∀ b ∈ g.dirBlocks img d, b < g.superBlock.sBlocksCount
  live : ∀ b ∈ g.dirBlocks img d, LiveBlock (g.blockAt img b)
  named_le : ∀ n ∈ g.named img d, n ≤ g.superBlock.sInodesCount

theorem LiveDir.ok {g : Globals} {img : Buf} {d : ℕ} (h : LiveDir g img d) : DirOk g img d where
  num_pos := h.num_pos
  num_le := h.num_le
  blocks_lt := h.blocks_lt
  wellFormed b hb := (h.live b hb).wellFormed
  named_le := h.named_le

def liveDirCheck (g : Globals) (img : Buf) (d : ℕ) : Bool :=
  decide (1 ≤ d ∧ d ≤ g.superBlock.sInodesCount) &&
    (g.dirBlocks img d).all (fun b => decide (b < g.superBlock.sBlocksCount) &&
      liveCheck (g.blockAt img b) g.blockSize 0) &&
    (g.named img d).all fun n => decide (n ≤ g.superBlock.sInodesCount)

theorem liveDir_of_check {g : Globals} {img : Buf} {d : ℕ} (h : liveDirCheck g img d = true) :
    LiveDir g img d := by
  simp only [liveDirCheck,Bool.and_eq_true,decide_eq_true_eq,List.all_eq_true] at h
  exact ⟨h.1.1.1,h.1.1.2,fun b hb => (h.1.2 b hb).1,
    fun b hb => liveBlock_of_check (h.1.2 b hb).2,h.2⟩

/-- A tree of directories: no cycle below the root, and every directory well formed. -/
structure DirTree (g : Globals) (img : Buf) : Prop where
  acyclic : Unfolding.Acyclic (g.subdirs img) rootInodeNum
  dirs : ∀ y, Unfolding.Reach (g.subdirs img) rootInodeNum y → DirOk g img y

section Views

variable {g : Globals} {img img' : Buf} {d : ℕ}

theorem forBlocks_dir {σ : Type} (body : ℕ → ℕ → σ → Fsck σ) (s : σ) :
    forBlocks body 0 (g.inodeAt img d).iBlock s = foldBlocks body 0 (g.dirBlocks img d) s := by
  rw [forBlocks_eq,Globals.dirBlocks]

theorem DirTree.unfolds (h : DirTree g img) :
    ∃ ds, Unfolding.Unfolds (g.subdirs img) [rootInodeNum] ds ∧ ∀ y ∈ ds, DirOk g img y := by
  have hfin : {y | Unfolding.Reach (g.subdirs img) rootInodeNum y}.Finite :=
    (Set.finite_Icc 1 g.superBlock.sInodesCount).subset fun y hy =>
      ⟨(h.dirs y hy).num_pos,(h.dirs y hy).num_le⟩
  obtain ⟨ds,hds⟩ := h.acyclic.unfolds hfin
  exact ⟨ds,hds,fun y hy => h.dirs y (hds.mem_iff.mp hy)⟩

theorem dirBlocks_ne_zero {b : ℕ} (h : b ∈ g.dirBlocks img d) : b ≠ 0 := by
  simpa using List.mem_takeWhile_imp h

theorem mem_named {b : ℕ} {q : ℕ × DirEntry} (hb : b ∈ g.dirBlocks img d)
    (hq : q ∈ entriesOf (g.blockAt img b)) : q.2.inode ∈ g.named img d :=
  List.mem_map.mpr ⟨q,List.mem_flatten.mpr ⟨_,List.mem_map.mpr ⟨b,hb,rfl⟩,hq⟩,rfl⟩

theorem DirOk.named_pos (h : DirOk g img d) : ∀ n ∈ g.named img d, 1 ≤ n := by
  intro n hn
  simp only [Globals.named,Globals.dirEntries,List.mem_map,List.mem_flatten] at hn
  obtain ⟨p,⟨es,⟨b,hb,rfl⟩,hp⟩,rfl⟩ := hn
  exact (h.wellFormed b hb).inode_pos p hp

theorem nonDotFrom_mem {i count : ℕ} {es : List (ℕ × DirEntry)} {e : DirEntry}
    (h : e ∈ nonDotFrom i count es) : ∃ o, (o,e) ∈ es := by
  induction es generalizing count with
  | nil => simp [nonDotFrom] at h
  | cons p es ih =>
    obtain ⟨o,e'⟩ := p
    rw [nonDotFrom] at h
    split at h
    · rcases List.mem_cons.mp h with rfl | h
      · exact ⟨o,by simp⟩
      · obtain ⟨o',ho⟩ := ih h
        exact ⟨o',by simp [ho]⟩
    · obtain ⟨o',ho⟩ := ih h
      exact ⟨o',by simp [ho]⟩

theorem nonDotBlocks_mem {i : ℕ} {bs : List (List (ℕ × DirEntry))} {e : DirEntry}
    (h : e ∈ nonDotBlocks i bs) : ∃ o, (o,e) ∈ bs.flatten := by
  induction bs generalizing i with
  | nil => simp [nonDotBlocks] at h
  | cons b bs ih =>
    rcases List.mem_append.mp h with h | h
    · obtain ⟨o,ho⟩ := nonDotFrom_mem h
      exact ⟨o,by simp [ho]⟩
    · obtain ⟨o,ho⟩ := ih h
      exact ⟨o,by simp at ho ⊢; exact Or.inr ho⟩

theorem nonDot_named {e : DirEntry} (h : e ∈ g.nonDot img d) : e.inode ∈ g.named img d := by
  obtain ⟨o,ho⟩ := nonDotBlocks_mem h
  exact List.mem_map.mpr ⟨(o,e),ho,rfl⟩

theorem subdirs_named {k : ℕ} (h : k ∈ g.subdirs img d) : k ∈ g.named img d := by
  obtain ⟨e,he,rfl⟩ := List.mem_map.mp h
  exact nonDot_named (List.mem_filter.mp he).1

theorem dirEntries_congr (hi : (g.inodeAt img' d).iBlock = (g.inodeAt img d).iBlock)
    (hb : ∀ b ∈ g.dirBlocks img d, g.blockAt img' b = g.blockAt img b) :
    g.dirBlocks img' d = g.dirBlocks img d ∧ g.dirEntries img' d = g.dirEntries img d := by
  have h₁ : g.dirBlocks img' d = g.dirBlocks img d := by rw [Globals.dirBlocks,hi,Globals.dirBlocks]
  refine ⟨h₁,?_⟩
  rw [Globals.dirEntries,h₁]
  exact List.map_congr_left fun b hb' => by rw [hb b hb']

end Views

end MyFsck
