import Mathlib.Algebra.GroupWithZero.Nat
import Mathlib.Data.List.Induction

/-!
# Byte codecs

An encoder appends bytes to a buffer and returns how many; a decoder takes bytes from the front
of its input.  Both may fail.

A decoder is specified by a *format*, a relation between values and bytes: `Decodes d format`
says that `d` accepts exactly the inputs that begin with the bytes of some value, returns this
value, and leaves what follows.  One rule for each construction, among them `bind`, builds the
format of a decoder from the formats of its parts.  Exactness in both directions gives the round
trip, rejection of truncated input, and that only canonical bytes are accepted
(`Codec.lawful_of_decodes`).
-/

namespace ByteCodec

abbrev Bytes := List UInt8

inductive ErrorKind where
  | invalidData
  | invalidInput
  | unexpectedEof
  deriving DecidableEq

structure Error where
  kind : ErrorKind
  message : String
  deriving DecidableEq

/-- A computation that appends to a buffer. -/
abbrev Encoder := StateT Bytes (Except Error)

/-- A computation that takes bytes from the front of its input. -/
abbrev Decoder := StateT Bytes (Except Error)

/-! ## Big-endian numbers -/

/-- The last `w` big-endian bytes of a number. -/
def beBytes : ℕ → ℕ → Bytes
  | 0, _ => []
  | w + 1, n => beBytes w (n / 256) ++ [UInt8.ofNat n]

/-- The number that big-endian bytes stand for. -/
def beValue (b : Bytes) : ℕ := b.foldl (fun n byte => n * 256 + byte.toNat) 0

@[simp] theorem length_beBytes (w n : ℕ) : (beBytes w n).length = w := by
  induction w generalizing n with
  | zero => rfl
  | succ w ih => simp [beBytes, ih]

theorem beValue_append (b : Bytes) (byte : UInt8) :
    beValue (b ++ [byte]) = beValue b * 256 + byte.toNat := by
  simp [beValue]

theorem beValue_beBytes {w n : ℕ} (h : n < 256 ^ w) : beValue (beBytes w n) = n := by
  induction w generalizing n with
  | zero =>
      rw [Nat.pow_zero, Nat.lt_one_iff] at h
      exact h.symm
  | succ w ih =>
      have hdiv : n / 256 < 256 ^ w := by
        rw [Nat.div_lt_iff_lt_mul (by decide), ← Nat.pow_succ]
        exact h
      calc beValue (beBytes (w + 1) n)
          = beValue (beBytes w (n / 256)) * 256 + (UInt8.ofNat n).toNat := beValue_append _ _
        _ = n / 256 * 256 + n % 256 := by rw [ih hdiv, UInt8.toNat_ofNat']
        _ = n := Nat.div_add_mod' n 256

theorem beBytes_beValue (b : Bytes) : beBytes b.length (beValue b) = b := by
  induction b using List.reverseRecOn with
  | nil => rfl
  | append_singleton b byte ih =>
      have hlt : byte.toNat < 256 := byte.toNat_lt
      have hdiv : (beValue b * 256 + byte.toNat) / 256 = beValue b := by omega
      have hlast : UInt8.ofNat (beValue b * 256 + byte.toNat) = byte := by
        apply UInt8.toNat_inj.mp
        rw [UInt8.toNat_ofNat']
        omega
      rw [List.length_append, List.length_singleton, beBytes, beValue_append, hdiv, hlast, ih]

theorem beValue_lt (b : Bytes) : beValue b < 256 ^ b.length := by
  induction b using List.reverseRecOn with
  | nil => exact Nat.one_pos
  | append_singleton b byte ih =>
      have hlt : byte.toNat < 256 := byte.toNat_lt
      rw [beValue_append, List.length_append, List.length_singleton, Nat.pow_succ]
      omega

/-! ## Encoders -/

/-- The encoder appends `w`, whatever the buffer holds, and returns its length. -/
def Writes (x : Encoder ℕ) (w : Bytes) : Prop :=
  ∀ buffer, x.run buffer = .ok (w.length, buffer ++ w)

def write (w : Bytes) : Encoder ℕ := fun buffer => .ok (w.length, buffer ++ w)

theorem writes_write (w : Bytes) : Writes (write w) w := fun _ => rfl

theorem Writes.unique {x : Encoder ℕ} {w w' : Bytes} (h : Writes x w) (h' : Writes x w') :
    w = w' := by
  have heq := (h []).symm.trans (h' [])
  simpa using congrArg Prod.snd (Except.ok.inj heq)

/-- What follows an encoder runs on the longer buffer. -/
theorem Writes.run_bind {x : Encoder ℕ} {w : Bytes} (h : Writes x w) {α : Type}
    (f : ℕ → Encoder α) (buffer : Bytes) :
    (x >>= f).run buffer = (f w.length).run (buffer ++ w) := by
  rw [StateT.run_bind, h buffer]
  rfl

/-- Two encoders one after the other. -/
theorem Writes.add {x y : Encoder ℕ} {u v : Bytes} (hu : Writes x u) (hv : Writes y v) :
    Writes (do let n ← x; let m ← y; pure (n + m)) (u ++ v) := by
  intro buffer
  rw [hu.run_bind, hv.run_bind, List.length_append, ← List.append_assoc]
  rfl

/-! ## Decoders -/

/-- The decoder accepts exactly what begins with the bytes of a value, and leaves the rest. -/
def Decodes {α : Type} (d : Decoder α) (format : α → Bytes → Prop) : Prop :=
  ∀ b a rest, d.run b = .ok (a, rest) ↔ ∃ w, format a w ∧ b = w ++ rest

section

variable {α β : Type}

theorem run_bind_ok {d : Decoder α} {b rest : Bytes} {a : α} (h : d.run b = .ok (a, rest))
    (f : α → Decoder β) : (d >>= f).run b = (f a).run rest := by
  rw [StateT.run_bind, h]
  rfl

theorem run_bind_error {d : Decoder α} {b : Bytes} {e : Error} (h : d.run b = .error e)
    (f : α → Decoder β) : (d >>= f).run b = .error e := by
  rw [StateT.run_bind, h]
  rfl

theorem Decodes.congr {d : Decoder α} {format format' : α → Bytes → Prop} (h : Decodes d format)
    (hiff : ∀ a w, format a w ↔ format' a w) : Decodes d format' := by
  intro b a rest
  rw [h b a rest]
  exact exists_congr fun w => and_congr_left fun _ => hiff a w

theorem decodes_pure (a : α) : Decodes (pure a) fun a' w => a' = a ∧ w = [] := by
  intro b a' rest
  constructor
  · intro h
    obtain ⟨rfl, rfl⟩ := Prod.mk.inj (Except.ok.inj h)
    exact ⟨[], ⟨rfl, rfl⟩, rfl⟩
  · rintro ⟨w, ⟨rfl, rfl⟩, rfl⟩
    rfl

theorem decodes_throw (e : Error) : Decodes (throw e : Decoder α) fun _ _ => False := by
  intro b a rest
  refine iff_of_false (fun h => ?_) (fun ⟨_, hfalse, _⟩ => hfalse)
  have herror : (throw e : Decoder α).run b = .error e := rfl
  rw [herror] at h
  exact absurd h (by simp)

theorem Decodes.bind {d : Decoder α} {f : α → Decoder β} {format : α → Bytes → Prop}
    {format' : α → β → Bytes → Prop} (hd : Decodes d format)
    (hf : ∀ a, Decodes (f a) (format' a)) :
    Decodes (d >>= f) fun c w => ∃ a u v, format a u ∧ format' a c v ∧ w = u ++ v := by
  intro b c rest
  constructor
  · intro h
    cases hrun : d.run b with
    | error e =>
        rw [run_bind_error hrun] at h
        exact absurd h (by simp)
    | ok result =>
        obtain ⟨a, middle⟩ := result
        rw [run_bind_ok hrun] at h
        obtain ⟨u, hu, rfl⟩ := (hd b a middle).mp hrun
        obtain ⟨v, hv, rfl⟩ := (hf a middle c rest).mp h
        exact ⟨u ++ v, ⟨a, u, v, hu, hv, rfl⟩, (List.append_assoc u v rest).symm⟩
  · rintro ⟨w, ⟨a, u, v, hu, hv, rfl⟩, rfl⟩
    have hrun := (hd (u ++ v ++ rest) a (v ++ rest)).mpr ⟨u, hu, List.append_assoc u v rest⟩
    rw [run_bind_ok hrun]
    exact (hf a (v ++ rest) c rest).mpr ⟨v, hv, rfl⟩

/-- A decoder that only turns what it has read into a value. -/
theorem Decodes.map {d : Decoder α} {f : α → β} {format : α → Bytes → Prop}
    (hd : Decodes d format) :
    Decodes (do let a ← d; pure (f a)) fun c w => ∃ a, format a w ∧ c = f a := by
  refine (hd.bind fun a => decodes_pure (f a)).congr fun c w => ?_
  constructor
  · rintro ⟨a, u, v, hu, ⟨rfl, rfl⟩, rfl⟩
    exact ⟨a, by rwa [List.append_nil], rfl⟩
  · rintro ⟨a, hw, rfl⟩
    exact ⟨a, w, [], hw, ⟨rfl, rfl⟩, (List.append_nil w).symm⟩

/-- Bytes written for one value and the bytes for another do not begin the same input. -/
theorem Decodes.unique {d : Decoder α} {format : α → Bytes → Prop} (h : Decodes d format)
    {a a' : α} {w w' rest rest' : Bytes} (hw : format a w) (hw' : format a' w')
    (heq : w ++ rest = w' ++ rest') : a = a' ∧ rest = rest' := by
  have hrun := (h (w ++ rest) a rest).mpr ⟨w, hw, rfl⟩
  have hrun' := (h (w ++ rest) a' rest').mpr ⟨w', hw', heq⟩
  exact Prod.mk.inj (Except.ok.inj (hrun.symm.trans hrun'))

end

/-! ## Codecs -/

structure Codec (α : Type) where
  encode : α → Encoder ℕ
  decode : Decoder α

namespace Codec

variable {α : Type}

/-- Every value is encoded, with a correct count.  It is decoded again whatever follows, not
from less, and from no other bytes. -/
structure Lawful (c : Codec α) : Prop where
  total : ∀ a, ∃ w, Writes (c.encode a) w
  roundTrip {a : α} {w : Bytes} : Writes (c.encode a) w →
    ∀ rest, c.decode.run (w ++ rest) = .ok (a, rest)
  truncated {a : α} {w b : Bytes} : Writes (c.encode a) w → b <+: w → b ≠ w →
    ∃ e, c.decode.run b = .error e
  canonical {a : α} {b rest : Bytes} : c.decode.run b = .ok (a, rest) →
    ∃ w, Writes (c.encode a) w ∧ b = w ++ rest

theorem Lawful.decodes {c : Codec α} (h : c.Lawful) :
    Decodes c.decode fun a w => Writes (c.encode a) w := by
  intro b a rest
  refine ⟨h.canonical, ?_⟩
  rintro ⟨w, hw, rfl⟩
  exact h.roundTrip hw rest

/-- A codec is lawful if its decoder accepts exactly what its encoder writes. -/
theorem lawful_of_decodes {c : Codec α} (htotal : ∀ a, ∃ w, Writes (c.encode a) w)
    (hdecodes : Decodes c.decode fun a w => Writes (c.encode a) w) : c.Lawful where
  total := htotal
  roundTrip hw rest := (hdecodes _ _ rest).mpr ⟨_, hw, rfl⟩
  truncated := by
    intro a w b hw hprefix hne
    cases hrun : c.decode.run b with
    | error e => exact ⟨e, rfl⟩
    | ok result =>
        obtain ⟨tail, rfl⟩ := hprefix
        obtain ⟨w', hw', rfl⟩ := (hdecodes b result.1 result.2).mp hrun
        -- what was read from the prefix is also the beginning of the whole
        have heq : (w' ++ result.2 ++ tail) ++ [] = w' ++ (result.2 ++ tail) := by simp
        have hrest := (hdecodes.unique hw hw' heq).2
        obtain ⟨-, rfl⟩ := List.append_eq_nil_iff.mp hrest.symm
        exact absurd (List.append_nil _).symm hne
  canonical hrun := (hdecodes _ _ _).mp hrun

end Codec

/-! ## Numbers -/

/-- `read_exact`. -/
def readExact (n : ℕ) : Decoder Bytes := fun b =>
  if b.length < n then .error ⟨.unexpectedEof, "failed to fill whole buffer"⟩
  else .ok (b.take n, b.drop n)

theorem decodes_readExact (n : ℕ) : Decodes (readExact n) fun x w => x = w ∧ w.length = n := by
  intro b x rest
  simp only [readExact, StateT.run]
  split_ifs with hshort
  · refine iff_of_false (by simp) ?_
    rintro ⟨w, ⟨-, rfl⟩, rfl⟩
    exact Nat.not_le.mpr hshort (by simp)
  · constructor
    · intro h
      obtain ⟨rfl, rfl⟩ := Prod.mk.inj (Except.ok.inj h)
      have hlen : (b.take n).length = n := List.length_take_of_le (Nat.not_lt.mp hshort)
      exact ⟨b.take n, ⟨rfl, hlen⟩, (List.take_append_drop n b).symm⟩
    · rintro ⟨w, ⟨rfl, rfl⟩, rfl⟩
      simp

/-- A type of numbers below `256 ^ w`, written as `w` big-endian bytes. -/
def number {α : Type} (w : ℕ) (toNat : α → ℕ) (ofNat : ℕ → α) : Codec α where
  encode x := write (beBytes w (toNat x))
  decode := do
    let b ← readExact w
    pure (ofNat (beValue b))

theorem number_lawful {α : Type} {w : ℕ} {toNat : α → ℕ} {ofNat : ℕ → α}
    (hlt : ∀ x, toNat x < 256 ^ w) (hof : ∀ x, ofNat (toNat x) = x)
    (hto : ∀ n, n < 256 ^ w → toNat (ofNat n) = n) : (number w toNat ofNat).Lawful := by
  refine Codec.lawful_of_decodes (fun x => ⟨_, writes_write _⟩) ?_
  refine (decodes_readExact w).map.congr fun x v => ?_
  constructor
  · rintro ⟨b, ⟨rfl, hlen⟩, rfl⟩
    have hvalue : toNat (ofNat (beValue b)) = beValue b := hto _ (hlen ▸ beValue_lt b)
    show Writes (write (beBytes w (toNat (ofNat (beValue b))))) b
    rw [hvalue, ← hlen, beBytes_beValue]
    exact writes_write b
  · intro hw
    obtain rfl := hw.unique (writes_write _)
    exact ⟨_, ⟨rfl, length_beBytes w _⟩, by rw [beValue_beBytes (hlt x), hof]⟩

def u8 : Codec UInt8 := number 1 UInt8.toNat UInt8.ofNat

def u32 : Codec UInt32 := number 4 UInt32.toNat UInt32.ofNat

def u64 : Codec UInt64 := number 8 UInt64.toNat UInt64.ofNat

theorem u8_lawful : u8.Lawful :=
  number_lawful UInt8.toNat_lt (fun _ => UInt8.ofNat_toNat) fun _ h => UInt8.toNat_ofNat_of_lt' h

theorem u32_lawful : u32.Lawful :=
  number_lawful UInt32.toNat_lt (fun _ => UInt32.ofNat_toNat) fun _ h =>
    UInt32.toNat_ofNat_of_lt' h

theorem u64_lawful : u64.Lawful :=
  number_lawful UInt64.toNat_lt (fun _ => UInt64.ofNat_toNat) fun _ h =>
    UInt64.toNat_ofNat_of_lt' h

theorem writes_u8 (x : UInt8) : Writes (u8.encode x) (beBytes 1 x.toNat) := writes_write _

theorem writes_u32 (x : UInt32) : Writes (u32.encode x) (beBytes 4 x.toNat) := writes_write _

theorem writes_u64 (x : UInt64) : Writes (u64.encode x) (beBytes 8 x.toNat) := writes_write _

/-! ## Options -/

/-- A byte that says whether there is a value, and the value. -/
def option {α : Type} (c : Codec α) : Codec (Option α) where
  encode
    | none => u8.encode 0
    | some a => do
        let n ← u8.encode 1
        let m ← c.encode a
        pure (n + m)
  decode := do
    let tag ← u8.decode
    match tag with
    | 0 => pure none
    | 1 => do
        let a ← c.decode
        pure (some a)
    | _ => throw ⟨.invalidData, "neither 0 nor 1"⟩

theorem option_lawful {α : Type} {c : Codec α} (hc : c.Lawful) : (option c).Lawful := by
  have hsome {a : α} {v : Bytes} (hv : Writes (c.encode a) v) :
      Writes ((option c).encode (some a)) (beBytes 1 1 ++ v) := (writes_u8 1).add hv
  refine Codec.lawful_of_decodes (fun value => ?_) ?_
  · cases value with
    | none => exact ⟨_, writes_u8 0⟩
    | some a =>
        obtain ⟨v, hv⟩ := hc.total a
        exact ⟨_, hsome hv⟩
  · have htag (tag : UInt8) :
        Decodes (match tag with
          | 0 => pure none
          | 1 => do
              let a ← c.decode
              pure (some a)
          | _ => throw ⟨.invalidData, "neither 0 nor 1"⟩)
          fun value w => tag = 0 ∧ value = none ∧ w = [] ∨
            tag = 1 ∧ ∃ a, value = some a ∧ Writes (c.encode a) w := by
      split
      · exact (decodes_pure none).congr fun value w => by simp
      · exact hc.decodes.map.congr fun value w => by simp [and_comm]
      · next h₀ h₁ =>
        refine (decodes_throw _).congr fun value w => iff_of_false id ?_
        rintro (⟨rfl, -⟩ | ⟨rfl, -⟩)
        · exact h₀ rfl
        · exact h₁ rfl
    refine (u8_lawful.decodes.bind htag).congr fun value w => ?_
    constructor
    · rintro ⟨tag, u, v, hu, ⟨rfl, rfl, rfl⟩ | ⟨rfl, a, rfl, hv⟩, rfl⟩
      · obtain rfl := hu.unique (writes_u8 0)
        rw [List.append_nil]
        exact writes_u8 0
      · obtain rfl := hu.unique (writes_u8 1)
        exact hsome hv
    · intro hw
      cases value with
      | none =>
          have hbytes := hw.unique (writes_u8 0)
          exact ⟨0, w, [], hbytes ▸ writes_u8 0, Or.inl ⟨rfl, rfl, rfl⟩, (List.append_nil w).symm⟩
      | some a =>
          obtain ⟨v, hv⟩ := hc.total a
          exact ⟨1, _, v, writes_u8 1, Or.inr ⟨rfl, a, rfl, hv⟩, hw.unique (hsome hv)⟩

/-! ## Checksums -/

/-- A checksum over the bytes written or read since some point, and the error for one that
does not match. -/
structure Checksum where
  sum : Bytes → UInt64
  mismatch : UInt64 → UInt64 → String → Error

namespace Checksum

variable (k : Checksum)

/-- Append the checksum of what was appended to `start`. -/
def writeChecksum (start : Bytes) : Encoder ℕ := do
  let buffer ← get
  u64.encode (k.sum (buffer.drop start.length))

/-- Read a checksum, and compare it with the one computed. -/
def expectChecksum (actual : UInt64) (context : String) : Decoder Unit := do
  let expected ← u64.decode
  if expected = actual then pure () else throw (k.mismatch expected actual context)

/-- Read a checksum, and compare it with that of what was taken from `start`. -/
def verifyChecksum (start : Bytes) (context : String) : Decoder Unit := do
  let input ← get
  k.expectChecksum (k.sum (start.take (start.length - input.length))) context

theorem run_writeChecksum (start w : Bytes) :
    (k.writeChecksum start).run (start ++ w) =
      .ok (8, start ++ w ++ beBytes 8 (k.sum w).toNat) := by
  have hdrop : (start ++ w).drop start.length = w := List.drop_left
  have hwrites := writes_u64 (k.sum w) (start ++ w)
  rw [length_beBytes] at hwrites
  show (u64.encode (k.sum ((start ++ w).drop start.length))).run (start ++ w) = _
  rw [hdrop, hwrites]

theorem decodes_expectChecksum (actual : UInt64) (context : String) :
    Decodes (k.expectChecksum actual context) fun _ w => w = beBytes 8 actual.toNat := by
  have hcompare (expected : UInt64) :
      Decodes (if expected = actual then pure () else throw (k.mismatch expected actual context))
        fun (_ : Unit) w => expected = actual ∧ w = [] := by
    split_ifs with heq
    · exact (decodes_pure ()).congr fun _ w => by simp [heq]
    · exact (decodes_throw _).congr fun _ w => by simp [heq]
  refine (u64_lawful.decodes.bind hcompare).congr fun _ w => ?_
  constructor
  · rintro ⟨expected, u, v, hu, ⟨rfl, rfl⟩, rfl⟩
    rw [List.append_nil]
    exact hu.unique (writes_u64 expected)
  · rintro rfl
    exact ⟨actual, _, [], writes_u64 actual, ⟨rfl, rfl⟩, (List.append_nil _).symm⟩

/-- After `u` has been taken, the checksum is compared with that of `u`. -/
theorem run_verifyChecksum (u input : Bytes) (context : String) :
    (k.verifyChecksum (u ++ input) context).run input =
      (k.expectChecksum (k.sum u) context).run input := by
  have htake : (u ++ input).take ((u ++ input).length - input.length) = u := by simp
  show (k.expectChecksum (k.sum ((u ++ input).take ((u ++ input).length - input.length)))
    context).run input = _
  rw [htake]

theorem run_expectChecksum_of_ne {actual expected : UInt64} (h : expected ≠ actual)
    (context : String) (rest : Bytes) :
    (k.expectChecksum actual context).run (beBytes 8 expected.toNat ++ rest) =
      .error (k.mismatch expected actual context) := by
  have hread := u64_lawful.roundTrip (writes_u64 expected) rest
  rw [expectChecksum, run_bind_ok hread, if_neg h]
  rfl

/-- What a decoder has read, followed by its checksum. -/
theorem decodes_verified {α : Type} {d : Decoder α} {format : α → Bytes → Prop}
    (hd : Decodes d format) (context : String) :
    Decodes (do
      let start ← get
      let a ← d
      k.verifyChecksum start context
      pure a) fun a w => ∃ u, format a u ∧ w = u ++ beBytes 8 (k.sum u).toNat := by
  intro b a rest
  -- after `u` is read, the checksum is that of `u`
  have hrest (u mid : Bytes) (a' : α) :
      (do k.verifyChecksum (u ++ mid) context; pure a' : Decoder α).run mid = .ok (a, rest) ↔
        a = a' ∧ mid = beBytes 8 (k.sum u).toNat ++ rest := by
    have hsame : (do k.verifyChecksum (u ++ mid) context; pure a' : Decoder α).run mid =
        (do k.expectChecksum (k.sum u) context; pure a' : Decoder α).run mid := by
      simp only [StateT.run_bind, k.run_verifyChecksum]
    rw [hsame, (k.decodes_expectChecksum (k.sum u) context).map (f := fun _ => a') mid a rest]
    constructor
    · rintro ⟨w, ⟨-, rfl, rfl⟩, rfl⟩
      exact ⟨rfl, rfl⟩
    · rintro ⟨rfl, rfl⟩
      exact ⟨_, ⟨(), rfl, rfl⟩, rfl⟩
  show (d >>= fun a' => do k.verifyChecksum b context; pure a' : Decoder α).run b = _ ↔ _
  constructor
  · intro h
    cases hrun : d.run b with
    | error e =>
        rw [run_bind_error hrun] at h
        exact absurd h (by simp)
    | ok result =>
        obtain ⟨a', mid⟩ := result
        rw [run_bind_ok hrun] at h
        obtain ⟨u, hu, rfl⟩ := (hd b a' mid).mp hrun
        obtain ⟨rfl, rfl⟩ := (hrest u mid a').mp h
        exact ⟨_, ⟨u, hu, rfl⟩, (List.append_assoc _ _ _).symm⟩
  · rintro ⟨w, ⟨u, hu, rfl⟩, rfl⟩
    rw [List.append_assoc, run_bind_ok ((hd _ a _).mpr ⟨u, hu, rfl⟩)]
    exact (hrest u _ a).mpr ⟨rfl, rfl⟩

end Checksum

/-! ## Sequences -/

section

variable {α : Type} (c : Codec α)

/-- Encode values one after the other. -/
def encodeAll : List α → Encoder ℕ
  | [] => pure 0
  | a :: rest => do
      let n ← c.encode a
      let m ← encodeAll rest
      pure (n + m)

/-- Decode values until the input is used up.  Each has to take a byte at least, so the length
of the input is enough fuel. -/
def decodeAll : ℕ → Bytes → Except Error (List α)
  | _, [] => .ok []
  | 0, _ :: _ => .error ⟨.invalidData, "no bytes taken"⟩
  | fuel + 1, byte :: b => do
      let (a, rest) ← c.decode.run (byte :: b)
      let values ← decodeAll fuel rest
      .ok (a :: values)

variable {c}

theorem decodeAll_of_ne_nil {fuel : ℕ} {b rest : Bytes} {a : α} (hne : b ≠ [])
    (hrun : c.decode.run b = .ok (a, rest)) :
    decodeAll c (fuel + 1) b = (decodeAll c fuel rest).map (a :: ·) := by
  cases b with
  | nil => exact absurd rfl hne
  | cons byte b =>
      rw [decodeAll, hrun]
      cases hrest : decodeAll c fuel rest <;> simp [bind, Except.bind, Except.map, hrest]

/-- A sequence is decoded again from what its encoder writes, where no encoding is empty. -/
theorem roundTrip_all (h : c.Lawful) (hne : ∀ a w, Writes (c.encode a) w → w ≠ []) (l : List α) :
    ∃ w, Writes (encodeAll c l) w ∧ ∀ fuel, w.length ≤ fuel → decodeAll c fuel w = .ok l := by
  induction l with
  | nil =>
      refine ⟨[], fun buffer => ?_, fun fuel _ => ?_⟩
      · rw [List.append_nil]
        rfl
      · simp [decodeAll]
  | cons a l ih =>
      obtain ⟨v, hv, hdecode⟩ := ih
      obtain ⟨u, hu⟩ := h.total a
      have hpos : 0 < u.length := List.length_pos_iff.mpr (hne a u hu)
      refine ⟨u ++ v, fun buffer => ?_, fun fuel hfuel => ?_⟩
      · exact hu.add hv buffer
      · rw [List.length_append] at hfuel
        obtain ⟨fuel, rfl⟩ : ∃ n, fuel = n + 1 := ⟨fuel - 1, by omega⟩
        have happend : u ++ v ≠ [] := List.append_ne_nil_of_left_ne_nil (hne a u hu) v
        rw [decodeAll_of_ne_nil happend (h.roundTrip hu v), hdecode fuel (by omega)]
        rfl

end

end ByteCodec
