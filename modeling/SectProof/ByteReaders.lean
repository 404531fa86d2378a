import Mathlib

/-! # Byte orders and readers of byte strings

A word of `n` bytes is stored in memory in one of two byte orders, and loading
it back gives the number modulo `256 ^ n`.

A `Reader` consumes a prefix of a byte string or fails.  `Reads p bs a` says
what a writer needs to know about a reader: in front of any continuation it
consumes exactly `bs` and returns `a`, and on every proper prefix of `bs` it
fails.  The second half makes truncation a property that composes: the rules
below build `Reads` for a sequence of reads from its parts, so a decoder that is
assembled from them cannot return partial data.
-/

open List

/-- The byte order of a machine. -/
inductive ByteOrder
  | little
  | big
  deriving DecidableEq, Repr

namespace ByteOrder

/-- The `n` low bytes of `v`, least significant first. -/
def lowBytes : Nat → Nat → List UInt8
  | 0, _ => []
  | n + 1, v => UInt8.ofNat v :: lowBytes n (v / 256)

/-- The number whose bytes are given, least significant first. -/
def ofLowBytes : List UInt8 → Nat
  | [] => 0
  | b :: bs => b.toNat + 256 * ofLowBytes bs

@[simp] theorem length_lowBytes (n v : Nat) : (lowBytes n v).length = n := by
  induction n generalizing v with
  | zero => rfl
  | succ n ih => simp [lowBytes, ih]

theorem ofLowBytes_lowBytes (n v : Nat) : ofLowBytes (lowBytes n v) = v % 256 ^ n := by
  induction n generalizing v with
  | zero => simp [lowBytes, ofLowBytes, Nat.mod_one]
  | succ n ih =>
    have hbyte : (UInt8.ofNat v).toNat = v % 256 := by simp
    show (UInt8.ofNat v).toNat + 256 * ofLowBytes (lowBytes n (v / 256)) = v % 256 ^ (n + 1)
    rw [hbyte, ih, Nat.pow_succ, Nat.mul_comm (256 ^ n) 256, Nat.mod_mul]

/-- The `n` bytes of memory that hold `v`. -/
def store (o : ByteOrder) (n v : Nat) : List UInt8 :=
  match o with
  | .little => lowBytes n v
  | .big => (lowBytes n v).reverse

/-- The number held by the given bytes of memory. -/
def load (o : ByteOrder) (bs : List UInt8) : Nat :=
  match o with
  | .little => ofLowBytes bs
  | .big => ofLowBytes bs.reverse

@[simp] theorem length_store (o : ByteOrder) (n v : Nat) : (o.store n v).length = n := by
  cases o <;> simp [store]

theorem load_store (o : ByteOrder) (n v : Nat) : o.load (o.store n v) = v % 256 ^ n := by
  cases o
  · exact ofLowBytes_lowBytes n v
  · show ofLowBytes (lowBytes n v).reverse.reverse = _
    rw [reverse_reverse, ofLowBytes_lowBytes]

/-- A 32-bit word survives memory. -/
@[simp] theorem load_store_uint32 (o : ByteOrder) (w : UInt32) :
    UInt32.ofNat (o.load (o.store 4 w.toNat)) = w := by
  have hw : w.toNat < 256 ^ 4 := w.toNat_lt
  rw [load_store, Nat.mod_eq_of_lt hw, UInt32.ofNat_toNat]

/-- A 64-bit word survives memory. -/
@[simp] theorem load_store_uint64 (o : ByteOrder) (w : UInt64) :
    UInt64.ofNat (o.load (o.store 8 w.toNat)) = w := by
  have hw : w.toNat < 256 ^ 8 := w.toNat_lt
  rw [load_store, Nat.mod_eq_of_lt hw, UInt64.ofNat_toNat]

end ByteOrder

/-- A reader of byte strings that may fail. -/
abbrev Reader (ε α : Type) := StateT (List UInt8) (Except ε) α

namespace Reader
variable {ε α β : Type}

/-- `p` consumes exactly `bs`, returns `a`, and fails on every proper prefix of
`bs`. -/
structure Reads (p : Reader ε α) (bs : List UInt8) (a : α) : Prop where
  full : ∀ rest, p (bs ++ rest) = .ok (a, rest)
  short : ∀ m, m < bs.length → ∃ e, p (bs.take m) = .error e

variable {p : Reader ε α} {q : α → Reader ε β} {out rest bs : List UInt8} {a : α} {b : β}

theorem bind_ok (h : p out = .ok (a, rest)) : (p >>= q) out = q a rest := by
  show (p out).bind _ = _
  rw [h]
  rfl

theorem bind_error {e : ε} (h : p out = .error e) : (p >>= q) out = .error e := by
  show (p out).bind _ = _
  rw [h]
  rfl

theorem bind_eq_ok (h : (p >>= q) out = .ok (b, rest)) :
    ∃ a mid, p out = .ok (a, mid) ∧ q a mid = .ok (b, rest) := by
  cases hp : p out with
  | error e => rw [bind_error hp] at h; cases h
  | ok r => exact ⟨r.1, r.2, rfl, (bind_ok hp).symm.trans h⟩

/-- `p` never gives back more than it was given. -/
def Shrinks (p : Reader ε α) : Prop :=
  ∀ out a rest, p out = .ok (a, rest) → rest.length ≤ out.length

theorem Shrinks.pure (a : α) : Shrinks (Pure.pure a : Reader ε α) := by
  intro out b rest h
  cases h
  exact Nat.le_refl _

theorem Shrinks.bind (hp : Shrinks p) (hq : ∀ a, Shrinks (q a)) : Shrinks (p >>= q) := by
  intro out b rest h
  obtain ⟨a, mid, hmid, hrest⟩ := bind_eq_ok h
  exact Nat.le_trans (hq a mid b rest hrest) (hp out a mid hmid)

theorem Reads.pure (a : α) : Reads (pure a : Reader ε α) [] a where
  full := fun _ => rfl
  short := fun m hm => absurd hm (Nat.not_lt_zero m)

/-- **Reading in sequence.**  The bytes of the parts follow each other, and a
cut inside either part makes the whole fail. -/
theorem Reads.bind {cs : List UInt8} (hp : Reads p bs a) (hq : Reads (q a) cs b) :
    Reads (p >>= q) (bs ++ cs) b where
  full := fun rest => by
    rw [append_assoc, bind_ok (hp.full (cs ++ rest))]
    exact hq.full rest
  short := fun m hm => by
    rw [length_append] at hm
    by_cases hcut : m < bs.length
    · obtain ⟨e, he⟩ := hp.short m hcut
      have htake : (bs ++ cs).take m = bs.take m := take_append_of_le_length (by omega)
      exact ⟨e, by rw [htake]; exact bind_error he⟩
    · obtain ⟨e, he⟩ := hq.short (m - bs.length) (by omega)
      have htake : (bs ++ cs).take m = bs ++ cs.take (m - bs.length) := by
        rw [take_append, take_of_length_le (by omega)]
      exact ⟨e, by rw [htake, bind_ok (hp.full _)]; exact he⟩

/-- A reader followed by a function of its result. -/
theorem Reads.bind_pure (hp : Reads p bs a) (hq : q a = Pure.pure b) : Reads (p >>= q) bs b := by
  have h := hp.bind (q := q) (hq ▸ Reads.pure b)
  rwa [append_nil] at h

/-- The next `n` bytes, or the error `err` when fewer are left. -/
def bytes (n : Nat) (err : List UInt8 → ε) : Reader ε (List UInt8) := fun out =>
  if out.length < n then .error (err out) else .ok (out.take n, out.drop n)

theorem bytes_ok {n : Nat} {err : List UInt8 → ε} (h : bytes n err out = .ok (bs, rest)) :
    rest.length + n = out.length := by
  unfold bytes at h
  split at h
  · cases h
  · cases h
    rw [length_drop]
    omega

theorem reads_bytes {n : Nat} (err : List UInt8 → ε) (h : bs.length = n) :
    Reads (bytes n err) bs bs where
  full := fun rest => by
    have hlen : ¬ (bs ++ rest).length < n := by rw [length_append]; omega
    unfold bytes
    rw [if_neg hlen, ← h, take_left, drop_left]
  short := fun m hm => by
    have hlen : (bs.take m).length < n := by rw [length_take]; omega
    exact ⟨_, by unfold bytes; rw [if_pos hlen]⟩

/-! ## Where a cut looks like the end of the input

A loop that reads records until the input ends has to tell the end between two
records from a cut inside one.  `Splits` refines `Reads` by the set of cuts at
which the error is the one the loop takes for the end.
-/

/-- `p` reads `bs` as `a`, and of the cuts inside `bs` exactly those in `clean`
fail with an error that is `isEof`. -/
structure Splits (isEof : ε → Bool) (p : Reader ε α) (bs : List UInt8) (a : α)
    (clean : Nat → Prop) : Prop where
  full : ∀ rest, p (bs ++ rest) = .ok (a, rest)
  short : ∀ m, m < bs.length → ∃ e, p (bs.take m) = .error e ∧ (isEof e = true ↔ clean m)

namespace Splits
variable {isEof : ε → Bool}

theorem pure (a : α) (clean : Nat → Prop) :
    Splits isEof (pure a : Reader ε α) [] a clean where
  full := fun _ => rfl
  short := fun m hm => absurd hm (Nat.not_lt_zero m)

variable {p : Reader ε α} {bs : List UInt8} {a : α}

/-- **Cuts in sequence.**  A cut inside the first part is judged by the first
reader, a later one by the second. -/
theorem bind {q : α → Reader ε β} {cs : List UInt8} {b : β} {cleanP cleanQ : Nat → Prop}
    (hp : Splits isEof p bs a cleanP) (hq : Splits isEof (q a) cs b cleanQ) :
    Splits isEof (p >>= q) (bs ++ cs) b
      (fun m => if m < bs.length then cleanP m else cleanQ (m - bs.length)) where
  full := fun rest => by
    rw [append_assoc, bind_ok (hp.full (cs ++ rest))]
    exact hq.full rest
  short := fun m hm => by
    rw [length_append] at hm
    by_cases hcut : m < bs.length
    · obtain ⟨e, he, hclean⟩ := hp.short m hcut
      have htake : (bs ++ cs).take m = bs.take m := take_append_of_le_length (by omega)
      refine ⟨e, by rw [htake]; exact bind_error he, ?_⟩
      rw [if_pos hcut]
      exact hclean
    · obtain ⟨e, he, hclean⟩ := hq.short (m - bs.length) (by omega)
      have htake : (bs ++ cs).take m = bs ++ cs.take (m - bs.length) := by
        rw [take_append, take_of_length_le (by omega)]
      refine ⟨e, by rw [htake, bind_ok (hp.full _)]; exact he, ?_⟩
      rw [if_neg hcut]
      exact hclean

/-- The cuts may be described in any way that agrees inside the bytes read. -/
theorem congr {clean clean' : Nat → Prop} (h : Splits isEof p bs a clean)
    (hc : ∀ m, m < bs.length → (clean m ↔ clean' m)) : Splits isEof p bs a clean' where
  full := h.full
  short := fun m hm => by
    obtain ⟨e, he, hclean⟩ := h.short m hm
    exact ⟨e, he, hclean.trans (hc m hm)⟩

/-- A fixed number of bytes is cut cleanly only in front of the first one. -/
theorem bytes {n : Nat} {err : List UInt8 → ε} (hlen : bs.length = n)
    (herr : ∀ out, isEof (err out) = true ↔ out = []) :
    Splits isEof (bytes n err) bs bs (fun m => m = 0) where
  full := (reads_bytes err hlen).full
  short := fun m hm => by
    have hshort : (bs.take m).length < n := by rw [length_take]; omega
    refine ⟨err (bs.take m), by unfold Reader.bytes; rw [if_pos hshort], ?_⟩
    rw [herr, ← length_eq_zero_iff, length_take]
    omega

/-- A reader followed by a function of its result. -/
theorem bind_pure {q : α → Reader ε β} {b : β} {clean : Nat → Prop} (hp : Splits isEof p bs a clean)
    (hq : q a = Pure.pure b) : Splits isEof (p >>= q) bs b clean := by
  have h := hp.bind (q := q) (hq ▸ Splits.pure b clean)
  rw [append_nil] at h
  exact h.congr (fun m hm => by rw [if_pos hm])

end Splits

end Reader
