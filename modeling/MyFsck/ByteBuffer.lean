import Mathlib.Data.Nat.Bitwise
import Mathlib.Tactic.Ring
import Mathlib.Tactic.Linarith

/-! Finite byte buffers as total functions.
A buffer has a size and a byte at every index, zero from its end on, so that two buffers
are equal exactly when their sizes and their bytes are. The checked accesses return
`none` for an index outside the buffer. -/
namespace ByteBuffer

abbrev Byte := BitVec 8

@[ext] structure Buf where
  size : ℕ
  byte : ℕ → Byte
  past_end : ∀ i, size ≤ i → byte i = 0

namespace Buf

theorem ext_byte {a b : Buf} (hs : a.size = b.size) (h : ∀ i < a.size, a.byte i = b.byte i) :
    a = b := by
  refine Buf.ext hs (funext fun i => ?_)
  by_cases hi : i < a.size
  · exact h i hi
  · rw [a.past_end i (by omega),b.past_end i (by omega)]

/-- The buffer of the given size whose bytes are those of `f`. -/
def ofFn (n : ℕ) (f : ℕ → Byte) : Buf where
  size := n
  byte i := if i < n then f i else 0
  past_end i h := by simp [Nat.not_lt.mpr h]

@[simp] theorem ofFn_size (n : ℕ) (f : ℕ → Byte) : (ofFn n f).size = n := rfl
theorem ofFn_byte (n : ℕ) (f : ℕ → Byte) (i : ℕ) :
    (ofFn n f).byte i = if i < n then f i else 0 := rfl
theorem ofFn_byte_lt {n i : ℕ} (f : ℕ → Byte) (h : i < n) : (ofFn n f).byte i = f i := by
  simp [ofFn_byte,h]

/-- A zero-filled buffer. -/
def zero (n : ℕ) : Buf := ofFn n fun _ => 0

@[simp] theorem zero_size (n : ℕ) : (zero n).size = n := rfl
@[simp] theorem zero_byte (n i : ℕ) : (zero n).byte i = 0 := by simp [zero,ofFn_byte]

/-- Bytes `[off, off+n)` as a buffer of its own. -/
def slice (b : Buf) (off n : ℕ) : Buf := ofFn n fun i => b.byte (off+i)

@[simp] theorem slice_size (b : Buf) (off n : ℕ) : (b.slice off n).size = n := rfl
theorem slice_byte (b : Buf) {off n i : ℕ} (h : i < n) :
    (b.slice off n).byte i = b.byte (off+i) := ofFn_byte_lt _ h

theorem slice_whole {b : Buf} {n : ℕ} (h : b.size = n) : b.slice 0 n = b := by
  refine ext_byte h.symm fun i hi => ?_
  rw [slice_size] at hi
  rw [slice_byte _ hi,Nat.zero_add]

/-- Lay `src` over the bytes from `off` on; the buffer grows when `src` reaches past its end. -/
def patch (b : Buf) (off : ℕ) (src : Buf) : Buf where
  size := max b.size (off+src.size)
  byte i := if off ≤ i ∧ i < off+src.size then src.byte (i-off) else b.byte i
  past_end i h := by
    have h₁ : ¬ (off ≤ i ∧ i < off+src.size) := by omega
    simp only [h₁,if_false]
    exact b.past_end i (by omega)

theorem patch_size (b : Buf) (off : ℕ) (src : Buf) :
    (b.patch off src).size = max b.size (off+src.size) := rfl
theorem patch_size_of_le {b src : Buf} {off : ℕ} (h : off+src.size ≤ b.size) :
    (b.patch off src).size = b.size := by simp [patch_size,h]
theorem patch_byte (b : Buf) (off : ℕ) (src : Buf) (i : ℕ) :
    (b.patch off src).byte i = if off ≤ i ∧ i < off+src.size then src.byte (i-off) else b.byte i :=
  rfl
theorem patch_byte_in {b src : Buf} {off i : ℕ} (h₁ : off ≤ i) (h₂ : i < off+src.size) :
    (b.patch off src).byte i = src.byte (i-off) := by simp [patch_byte,h₁,h₂]
theorem patch_byte_out {b src : Buf} {off i : ℕ} (h : i < off ∨ off+src.size ≤ i) :
    (b.patch off src).byte i = b.byte i := by
  have h' : ¬ (off ≤ i ∧ i < off+src.size) := by omega
  simp [patch_byte,h']

theorem slice_patch_self {b src : Buf} {off n : ℕ} (hn : src.size = n) :
    (b.patch off src).slice off n = src := by
  refine ext_byte (by simp [hn]) fun i hi => ?_
  rw [slice_size] at hi
  rw [slice_byte _ hi,patch_byte_in (by omega) (by omega)]
  congr 1
  omega

theorem slice_patch_disjoint {b src : Buf} {off off' n : ℕ}
    (h : off'+n ≤ off ∨ off+src.size ≤ off') : (b.patch off src).slice off' n = b.slice off' n := by
  refine ext_byte rfl fun i hi => ?_
  rw [slice_size] at hi
  rw [slice_byte _ hi,slice_byte _ hi,patch_byte_out (by omega)]

theorem patch_slice_self {b : Buf} {off n : ℕ} (h : off+n ≤ b.size) :
    b.patch off (b.slice off n) = b := by
  refine ext_byte (patch_size_of_le (by simpa using h)) fun i _ => ?_
  by_cases hi : off ≤ i ∧ i < off+n
  · rw [patch_byte_in hi.1 (by simpa using hi.2),slice_byte _ (by omega)]
    congr 1
    omega
  · rw [patch_byte_out (by simp only [slice_size]; omega)]

/-- Replace one byte of the buffer. -/
def set (b : Buf) (i : ℕ) (v : Byte) : Buf where
  size := b.size
  byte k := if k = i ∧ k < b.size then v else b.byte k
  past_end k h := by
    have h₁ : ¬ (k = i ∧ k < b.size) := by omega
    simp only [h₁,if_false]
    exact b.past_end k h

@[simp] theorem set_size (b : Buf) (i : ℕ) (v : Byte) : (b.set i v).size = b.size := rfl
theorem set_byte (b : Buf) (i : ℕ) (v : Byte) (k : ℕ) :
    (b.set i v).byte k = if k = i ∧ k < b.size then v else b.byte k := rfl
theorem set_byte_self {b : Buf} {i : ℕ} {v : Byte} (h : i < b.size) : (b.set i v).byte i = v := by
  simp [set_byte,h]
theorem set_byte_ne {b : Buf} {i k : ℕ} {v : Byte} (h : k ≠ i) :
    (b.set i v).byte k = b.byte k := by simp [set_byte,h]

/-- Replace the bytes from `pos` on by those of a list. -/
def putList (b : Buf) : ℕ → List Byte → Buf
  | _, [] => b
  | pos, c::cs => (b.set pos c).putList (pos+1) cs

@[simp] theorem putList_size (b : Buf) (pos : ℕ) (cs : List Byte) :
    (b.putList pos cs).size = b.size := by
  induction cs generalizing b pos with
  | nil => rfl
  | cons c cs ih => simp [putList,ih]

theorem putList_byte_out {b : Buf} {pos i : ℕ} {cs : List Byte} (h : i < pos ∨ pos+cs.length ≤ i) :
    (b.putList pos cs).byte i = b.byte i := by
  induction cs generalizing b pos with
  | nil => rfl
  | cons c cs ih =>
    simp only [List.length_cons] at h
    rw [putList,ih (by omega),set_byte_ne (by omega)]

theorem putList_byte_in {b : Buf} {pos k : ℕ} {cs : List Byte} (hk : k < cs.length)
    (h : pos+cs.length ≤ b.size) : (b.putList pos cs).byte (pos+k) = cs[k] := by
  induction cs generalizing b pos k with
  | nil => simp at hk
  | cons c cs ih =>
    simp only [List.length_cons] at hk h
    rw [putList]
    cases k with
    | zero => rw [putList_byte_out (by omega),Nat.add_zero,set_byte_self (by omega)]; rfl
    | succ k =>
      have hrest := @ih (b.set pos c) (pos+1) k (by omega) (by rw [set_size]; omega)
      rw [show pos+(k+1) = pos+1+k by ring,hrest]
      rfl

/-- The chunks `0, …, n-1`, of `w` bytes each, one behind the other. -/
def concat (w n : ℕ) (chunk : ℕ → Buf) : Buf := ofFn (n*w) fun k => (chunk (k/w)).byte (k%w)

@[simp] theorem concat_size (w n : ℕ) (chunk : ℕ → Buf) : (concat w n chunk).size = n*w := rfl

theorem concat_byte {w n i j : ℕ} (chunk : ℕ → Buf) (hi : i < n) (hj : j < w) :
    (concat w n chunk).byte (i*w+j) = (chunk i).byte j := by
  have hlt : i*w+j < n*w := by
    have := Nat.mul_le_mul_right w hi
    rw [Nat.succ_mul] at this
    omega
  rw [concat,ofFn_byte_lt _ hlt,Nat.mul_comm i,Nat.mul_add_div (by omega),Nat.div_eq_of_lt hj,
    Nat.mul_add_mod,Nat.mod_eq_of_lt hj,Nat.add_zero]

theorem concat_congr {w n : ℕ} {chunk chunk' : ℕ → Buf} (h : ∀ i < n, chunk i = chunk' i) :
    concat w n chunk = concat w n chunk' := by
  refine ext_byte rfl fun k hk => ?_
  have hk' : k < n*w := hk
  have hlt : k/w < n := Nat.div_lt_of_lt_mul (by rwa [Nat.mul_comm] at hk')
  rw [concat,concat,ofFn_byte_lt _ hk',ofFn_byte_lt _ hk',h _ hlt]

theorem concat_slice {w n i : ℕ} {chunk : ℕ → Buf} (hi : i < n) (hs : (chunk i).size = w) :
    (concat w n chunk).slice (i*w) w = chunk i := by
  refine ext_byte hs.symm fun j hj => ?_
  have hj' : j < w := hj
  rw [slice_byte _ hj',concat_byte chunk hi hj']

theorem concat_one {w : ℕ} {chunk : ℕ → Buf} (hs : (chunk 0).size = w) : concat w 1 chunk = chunk 0 := by
  have hslice := @concat_slice w 1 0 chunk Nat.one_pos hs
  rwa [Nat.zero_mul,slice_whole (by simp)] at hslice

theorem patch_chunk {w n m : ℕ} {chunk : ℕ → Buf} (hm : m < n) (hs : (chunk m).size = w) :
    (ofFn (n*w) fun k => if k < m*w then (concat w n chunk).byte k else 0).patch (m*w) (chunk m) =
      ofFn (n*w) fun k => if k < (m+1)*w then (concat w n chunk).byte k else 0 := by
  have hle := Nat.mul_le_mul_right w hm
  rw [Nat.succ_mul] at hle
  have hsize : m*w+(chunk m).size ≤ n*w := by omega
  refine ext_byte (patch_size_of_le hsize) fun k hk => ?_
  rw [patch_size_of_le (by simpa using hsize),ofFn_size] at hk
  rw [ofFn_byte_lt _ hk,patch_byte,hs,Nat.succ_mul]
  by_cases h₁ : m*w ≤ k ∧ k < m*w+w
  · obtain ⟨j,rfl⟩ := Nat.exists_eq_add_of_le h₁.1
    have hj : j < w := by omega
    simp only [h₁.1,h₁.2,and_self,if_true,Nat.add_sub_cancel_left]
    exact (concat_byte chunk hm hj).symm
  · rw [if_neg h₁,ofFn_byte_lt _ hk]
    by_cases h₂ : k < m*w
    · simp [h₂,show k < m*w+w by omega]
    · simp [h₂,show ¬ k < m*w+w by omega]

section Chunks

variable {b src : Buf} {off : ℕ → ℕ} {w n : ℕ}

/-- The chunks at `off 0, …, off (n-1)`, one behind the other. -/
def gather (b : Buf) (off : ℕ → ℕ) (w n : ℕ) : Buf := concat w n fun i => b.slice (off i) w

/-- The buffer with these chunks taken from `src`, where they stand one behind the other. -/
def scatter (b : Buf) (off : ℕ → ℕ) (w : ℕ) (src : Buf) (n : ℕ) : Buf :=
  (List.range n).foldl (fun b i => b.patch (off i) (src.slice (i*w) w)) b

/-- No two of the chunks share a byte. -/
def ChunksApart (off : ℕ → ℕ) (w n : ℕ) : Prop :=
  ∀ i < n, ∀ j < n, i ≠ j → off i+w ≤ off j ∨ off j+w ≤ off i

theorem scatter_succ : b.scatter off w src (n+1) =
    (b.scatter off w src n).patch (off n) (src.slice (n*w) w) := by
  rw [scatter,List.range_succ,List.foldl_append]
  rfl

theorem scatter_congr {off' : ℕ → ℕ} (h : ∀ i < n, off i = off' i) :
    b.scatter off w src n = b.scatter off' w src n := by
  induction n with
  | zero => rfl
  | succ n ih => rw [scatter_succ,scatter_succ,ih fun i hi => h i (by omega),h n (by omega)]

theorem scatter_size (hin : ∀ i < n, off i+w ≤ b.size) : (b.scatter off w src n).size = b.size := by
  induction n with
  | zero => rfl
  | succ n ih =>
    have hrest := ih fun i hi => hin i (by omega)
    rw [scatter_succ,patch_size_of_le (by rw [hrest]; exact hin n (by omega)),hrest]

theorem scatter_byte_out {k : ℕ} (h : ∀ i < n, k < off i ∨ off i+w ≤ k) :
    (b.scatter off w src n).byte k = b.byte k := by
  induction n with
  | zero => rfl
  | succ n ih => rw [scatter_succ,patch_byte_out (h n (by omega)),ih fun i hi => h i (by omega)]

theorem slice_scatter (h : ChunksApart off w n) {i : ℕ} (hi : i < n) :
    (b.scatter off w src n).slice (off i) w = src.slice (i*w) w := by
  induction n with
  | zero => omega
  | succ n ih =>
    rw [scatter_succ]
    by_cases hin : i = n
    · rw [hin,slice_patch_self (slice_size _ _ _)]
    · rw [slice_patch_disjoint (h i hi n (by omega) hin)]
      exact ih (fun j hj l hl => h j (by omega) l (by omega)) (by omega)

theorem concat_slices (hs : src.size = n*w) : concat w n (fun i => src.slice (i*w) w) = src := by
  refine ext_byte hs.symm fun k hk => ?_
  have hk' : k < n*w := hk
  have hw : 0 < w := Nat.pos_of_ne_zero fun h0 => by simp [h0] at hk'
  rw [concat,ofFn_byte_lt _ hk',slice_byte _ (Nat.mod_lt k hw),Nat.mul_comm,Nat.div_add_mod]

theorem gather_scatter (h : ChunksApart off w n) (hs : src.size = n*w) :
    (b.scatter off w src n).gather off w n = src := by
  rw [gather,concat_congr fun i hi => slice_scatter h hi,concat_slices hs]

theorem scatter_gather (hin : ∀ i < n, off i+w ≤ b.size) : b.scatter off w (b.gather off w n) n = b := by
  suffices h : ∀ m ≤ n, b.scatter off w (b.gather off w n) m = b from h n le_rfl
  intro m
  induction m with
  | zero => exact fun _ => rfl
  | succ m ih =>
    intro hm
    have hchunk : (b.gather off w n).slice (m*w) w = b.slice (off m) w := by
      unfold gather
      rw [concat_slice hm (slice_size b (off m) w)]
    rw [scatter_succ,ih (by omega),hchunk,patch_slice_self (hin m hm)]

end Chunks

def load (b : Buf) (i : ℕ) : Option Byte := if i < b.size then some (b.byte i) else none
def store (b : Buf) (i : ℕ) (v : Byte) : Option Buf :=
  if i < b.size then some (b.set i v) else none
/-- The window `[off, off+n)`, when it lies inside the buffer. -/
def window (b : Buf) (off n : ℕ) : Option Buf :=
  if off+n ≤ b.size then some (b.slice off n) else none
/-- `patch` inside the buffer. -/
def overlay (b : Buf) (off : ℕ) (src : Buf) : Option Buf :=
  if off+src.size ≤ b.size then some (b.patch off src) else none

theorem load_eq {b : Buf} {i : ℕ} (h : i < b.size) : b.load i = some (b.byte i) := by simp [load,h]
theorem store_eq {b : Buf} {i : ℕ} (v : Byte) (h : i < b.size) :
    b.store i v = some (b.set i v) := by simp [store,h]
theorem window_eq {b : Buf} {off n : ℕ} (h : off+n ≤ b.size) :
    b.window off n = some (b.slice off n) := by simp [window,h]
theorem overlay_eq {b src : Buf} {off : ℕ} (h : off+src.size ≤ b.size) :
    b.overlay off src = some (b.patch off src) := by simp [overlay,h]

theorem overlay_some {b b' src : Buf} {off : ℕ} (h : b.overlay off src = some b') :
    off+src.size ≤ b.size ∧ b' = b.patch off src := by
  unfold overlay at h
  split at h
  · exact ⟨‹_›,(Option.some.inj h).symm⟩
  · simp at h

/-- Two buffers of one size with the same byte wherever `P` does not hold. -/
structure AgreeOff (P : ℕ → Prop) (a b : Buf) : Prop where
  size_eq : a.size = b.size
  byte_eq : ∀ k, ¬ P k → a.byte k = b.byte k

namespace AgreeOff

variable {P Q : ℕ → Prop} {a b c : Buf}

theorem refl (P : ℕ → Prop) (a : Buf) : AgreeOff P a a := ⟨rfl,fun _ _ => rfl⟩

theorem trans (h : AgreeOff P a b) (h' : AgreeOff P b c) : AgreeOff P a c :=
  ⟨h.size_eq.trans h'.size_eq,fun k hk => (h.byte_eq k hk).trans (h'.byte_eq k hk)⟩

theorem symm (h : AgreeOff P a b) : AgreeOff P b a :=
  ⟨h.size_eq.symm,fun k hk => (h.byte_eq k hk).symm⟩

theorem mono (h : AgreeOff P a b) (hPQ : ∀ k, P k → Q k) : AgreeOff Q a b :=
  ⟨h.size_eq,fun k hk => h.byte_eq k fun hp => hk (hPQ k hp)⟩

theorem window_eq (h : AgreeOff P a b) {off n : ℕ} (hP : ∀ k, off ≤ k → k < off+n → ¬ P k) :
    a.window off n = b.window off n := by
  have hslice : a.slice off n = b.slice off n := by
    refine ext_byte rfl fun k hk => ?_
    rw [slice_size] at hk
    rw [slice_byte _ hk,slice_byte _ hk]
    exact h.byte_eq _ (hP _ (by omega) (by omega))
  rw [window,window,h.size_eq,hslice]

theorem patch {s t : Buf} (h : AgreeOff P a b) (hs : AgreeOff P s t) {off : ℕ}
    (hP : ∀ k, P k → P (off+k)) : AgreeOff P (a.patch off s) (b.patch off t) := by
  refine ⟨by rw [patch_size,patch_size,h.size_eq,hs.size_eq],fun k hk => ?_⟩
  rw [patch_byte,patch_byte,hs.size_eq]
  split
  · rename_i hin
    refine hs.byte_eq _ fun hp => hk ?_
    have hoff := hP _ hp
    rwa [Nat.add_sub_cancel' hin.1] at hoff
  · exact h.byte_eq k hk

theorem patch_same (h : AgreeOff P a b) (off : ℕ) (src : Buf) :
    AgreeOff P (a.patch off src) (b.patch off src) := by
  refine ⟨by rw [patch_size,patch_size,h.size_eq],fun k hk => ?_⟩
  rw [patch_byte,patch_byte]
  split
  · rfl
  · exact h.byte_eq k hk

theorem patch_self {src : Buf} {off : ℕ} (hsize : off+src.size ≤ a.size)
    (h : ∀ j < src.size, ¬ P (off+j) → src.byte j = a.byte (off+j)) : AgreeOff P a (a.patch off src) := by
  refine ⟨(patch_size_of_le hsize).symm,fun k hk => ?_⟩
  by_cases hin : off ≤ k ∧ k < off+src.size
  · obtain ⟨j,rfl⟩ := Nat.exists_eq_add_of_le hin.1
    rw [patch_byte_in hin.1 hin.2,Nat.add_sub_cancel_left]
    exact (h j (by omega) hk).symm
  · rw [patch_byte_out (by omega)]

end AgreeOff

end Buf

/-- The number whose base-256 digits are the `len` bytes from `start` on, least significant first. -/
def num (f : ℕ → Byte) (start : ℕ) : ℕ → ℕ
  | 0 => 0
  | k+1 => num f start k + (f (start+k)).toNat * 256^k

theorem num_lt (f : ℕ → Byte) (start len : ℕ) : num f start len < 256^len := by
  induction len with
  | zero => simp [num]
  | succ k ih =>
    have hb : (f (start+k)).toNat ≤ 255 := by have := (f (start+k)).isLt; omega
    calc num f start (k+1) < 256^k + (f (start+k)).toNat * 256^k := by simp only [num]; omega
      _ ≤ 256^k + 255 * 256^k := Nat.add_le_add_left (Nat.mul_le_mul_right _ hb) _
      _ = 256^(k+1) := by ring

theorem num_congr {f g : ℕ → Byte} {start start' len : ℕ}
    (h : ∀ k < len, f (start+k) = g (start'+k)) : num f start len = num g start' len := by
  induction len with
  | zero => rfl
  | succ k ih => simp only [num,ih fun j hj => h j (by omega),h k (by omega)]

theorem num_byte {f : ℕ → Byte} {start len k : ℕ} (hk : k < len) :
    f (start+k) = BitVec.ofNat 8 (num f start len / 256^k) := by
  induction len with
  | zero => omega
  | succ n ih =>
    have hp : 0 < 256^k := by positivity
    by_cases hkn : k = n
    · subst hkn
      have h := num_lt f start k
      rw [num,Nat.add_mul_div_right _ _ hp,Nat.div_eq_of_lt h]
      apply BitVec.eq_of_toNat_eq
      have := (f (start+k)).isLt
      simp only [BitVec.toNat_ofNat]
      omega
    · have hlt : k < n := by omega
      rw [ih hlt,num]
      have he : (256:ℕ)^n = 256 * 256^(n-k-1) * 256^k := by
        rw [← pow_succ',← pow_add]
        congr 1
        omega
      rw [he,← Nat.mul_assoc,Nat.add_mul_div_right _ _ hp]
      apply BitVec.eq_of_toNat_eq
      simp only [BitVec.toNat_ofNat]
      rw [show (f (start+n)).toNat * (256*256^(n-k-1)) =
        256 * ((f (start+n)).toNat*256^(n-k-1)) by ring]
      omega

theorem num_inj {f g : ℕ → Byte} {start start' len : ℕ} (h : num f start len = num g start' len) :
    ∀ k < len, f (start+k) = g (start'+k) := by
  intro k hk
  rw [num_byte (f := f) hk,num_byte (f := g) hk,h]

/-- Write the low `n` bytes of `v` from `off` on, least significant byte first. -/
def Buf.putNum (b : Buf) (off v : ℕ) : ℕ → Buf
  | 0 => b
  | n+1 => (b.putNum off v n).set (off+n) (BitVec.ofNat 8 (v >>> (8*n)))

namespace Buf

@[simp] theorem putNum_size (b : Buf) (off v n : ℕ) : (b.putNum off v n).size = b.size := by
  induction n with
  | zero => rfl
  | succ n ih => simp [putNum,ih]

theorem putNum_byte_out {b : Buf} {off v n i : ℕ} (h : i < off ∨ off+n ≤ i) :
    (b.putNum off v n).byte i = b.byte i := by
  induction n with
  | zero => rfl
  | succ n ih => rw [putNum,set_byte_ne (by omega),ih (by omega)]

theorem putNum_byte_in {b : Buf} {off v n k : ℕ} (hk : k < n) (h : off+n ≤ b.size) :
    (b.putNum off v n).byte (off+k) = BitVec.ofNat 8 (v / 256^k) := by
  induction n with
  | zero => omega
  | succ n ih =>
    by_cases hkn : k = n
    · subst hkn
      rw [putNum,set_byte_self (by simp; omega),Nat.shiftRight_eq_div_pow,pow_mul]
      norm_num
    · rw [putNum,set_byte_ne (by omega),ih (by omega) (by omega)]

theorem num_putNum {b : Buf} {off v n : ℕ} (h : off+n ≤ b.size) :
    num (b.putNum off v n).byte off n = v % 256^n := by
  induction n with
  | zero => simp [num,Nat.mod_one]
  | succ n ih =>
    have h₁ : num (b.putNum off v (n+1)).byte off n = num (b.putNum off v n).byte off n :=
      num_congr fun k hk => by rw [putNum,set_byte_ne (by omega)]
    rw [num,h₁,ih (by omega),putNum_byte_in (by omega) h,Nat.pow_succ,Nat.mod_mul]
    simp only [BitVec.toNat_ofNat]
    ring

theorem num_putNum_disjoint {b : Buf} {off v n start len : ℕ}
    (h : start+len ≤ off ∨ off+n ≤ start) :
    num (b.putNum off v n).byte start len = num b.byte start len :=
  num_congr fun k hk => putNum_byte_out (by omega)

theorem slice_putNum {b : Buf} {p m off v n : ℕ} (h : off+n ≤ m) (hm : p+m ≤ b.size) :
    (b.putNum (p+off) v n).slice p m = (b.slice p m).putNum off v n := by
  refine ext_byte (by rw [slice_size,putNum_size,slice_size]) fun i hi => ?_
  rw [slice_size] at hi
  rw [slice_byte _ hi]
  by_cases hin : off ≤ i ∧ i < off+n
  · obtain ⟨k,rfl⟩ := Nat.exists_eq_add_of_le hin.1
    rw [← Nat.add_assoc,putNum_byte_in (by omega) (by omega),
      putNum_byte_in (by omega) (by rw [slice_size]; omega)]
  · rw [putNum_byte_out (by omega),putNum_byte_out (by omega),slice_byte _ hi]

theorem putNum_num {b : Buf} {off v n : ℕ} (h : off+n ≤ b.size)
    (hv : num b.byte off n = v % 256^n) : b.putNum off v n = b := by
  refine ext_byte (by simp) fun i _ => ?_
  by_cases hi : off ≤ i ∧ i < off+n
  · obtain ⟨k,rfl⟩ := Nat.exists_eq_add_of_le hi.1
    exact num_inj ((num_putNum h).trans hv.symm) k (by omega)
  · exact putNum_byte_out (by omega)

end Buf

end ByteBuffer
