import Sm83Asm.Link.Program

set_option autoImplicit false

/-!
# Reading bytes back

Object files and link-time programs are written as bytes: words of four bytes lowest first, blobs
behind their length, text in UTF-8. This module reads those pieces back. A reader takes a value off
the front of a list of bytes; `Reads r bytes a` says that it takes exactly `bytes` and gives `a`,
whatever follows. Readers of larger things are put together from smaller ones with `Reads.bind`.
-/

namespace Sm83Asm.Bytes

/-- Takes a value off the front of some bytes, if they begin with one. -/
abbrev Reader := StateT (List UInt8) Option

variable {α β : Type}

/-- A reader takes exactly `bytes` off the front of any longer list and gives `a`. -/
def Reads (r : Reader α) (bytes : List UInt8) (a : α) : Prop :=
  ∀ rest, r.run (bytes ++ rest) = some (a, rest)

theorem Reads.pure (a : α) : Reads (pure a) [] a := fun _ => rfl

theorem Reads.bind {r : Reader α} {f : α → Reader β} {bs cs : List UInt8} {a : α} {b : β}
    (hr : Reads r bs a) (hf : Reads (f a) cs b) : Reads (r >>= f) (bs ++ cs) b := by
  intro rest
  rw [List.append_assoc]
  show (r.run (bs ++ (cs ++ rest))).bind (fun p => (f p.1).run p.2) = some (b, rest)
  rw [hr]
  exact hf rest

theorem Reads.map {r : Reader α} {bs : List UInt8} {a : α} (f : α → β) (hr : Reads r bs a) :
    Reads (f <$> r) bs (f a) := by
  intro rest
  show (r.run (bs ++ rest)).bind (fun p => some (f p.1, p.2)) = some (f a, rest)
  rw [hr]
  rfl

theorem Reads.bind_pure {r : Reader α} {bs : List UInt8} {a : α} (f : α → β)
    (hr : Reads r bs a) : Reads (r >>= fun a => Pure.pure (f a)) bs (f a) := by
  rw [← List.append_nil bs]
  exact hr.bind (Reads.pure (f a))

theorem Reads.lift {a? : Option α} {a : α} (h : a? = some a) :
    Reads (StateT.lift a?) [] a := by
  subst h
  exact Reads.pure a

/-! ## Pieces -/

/-- Reads one byte. -/
def byte : Reader UInt8
  | [] => none
  | b :: bs => some (b, bs)

theorem reads_byte (b : UInt8) : Reads byte [b] b := fun _ => rfl

/-- The word with four bytes, the lowest given first. -/
def wordOf (a b c d : UInt8) : UInt32 :=
  UInt32.ofNat (a.toNat + 256 * b.toNat + 65536 * c.toNat + 16777216 * d.toNat)

/-- Reads a word of four bytes. -/
def word : Reader UInt32
  | a :: b :: c :: d :: bs => some (wordOf a b c d, bs)
  | _ => none

theorem wordOf_littleEndian (n : UInt32) :
    wordOf n.toUInt8 (n >>> 8).toUInt8 (n >>> 16).toUInt8 (n >>> 24).toUInt8 = n := by
  have hn : n.toNat < 4294967296 := n.toNat_lt
  apply UInt32.toNat_inj.mp
  simp only [wordOf, UInt32.toNat_ofNat', UInt32.toNat_toUInt8, UInt32.toNat_shiftRight,
    Nat.shiftRight_eq_div_pow, UInt32.reduceToNat, Nat.reduceMod, Nat.reducePow]
  omega

theorem reads_word (n : UInt32) : Reads word (Link.littleEndian n) n := by
  intro rest
  show some (wordOf n.toUInt8 (n >>> 8).toUInt8 (n >>> 16).toUInt8 (n >>> 24).toUInt8, rest) = _
  rw [wordOf_littleEndian]

/-- Reads a number of four bytes. -/
def long : Reader Nat := UInt32.toNat <$> word

/-- Four bytes hold a number up to multiples of `UInt32.size`. -/
theorem reads_long_mod (n : Nat) :
    Reads long (Link.littleEndian (UInt32.ofNat n)) (n % UInt32.size) := by
  have key := (reads_word (UInt32.ofNat n)).map UInt32.toNat
  rwa [UInt32.toNat_ofNat'] at key

theorem reads_long {n : Nat} (h : n < UInt32.size) :
    Reads long (Link.littleEndian (UInt32.ofNat n)) n := by
  have key := reads_long_mod n
  rwa [Nat.mod_eq_of_lt h] at key

/-- Reads a number of bytes. -/
def chunk (n : Nat) : Reader (List UInt8) := fun bs =>
  if n ≤ bs.length then some (bs.take n, bs.drop n) else none

theorem reads_chunk (bs : List UInt8) : Reads (chunk bs.length) bs bs := by
  intro rest
  show (if bs.length ≤ (bs ++ rest).length then
      some ((bs ++ rest).take bs.length, (bs ++ rest).drop bs.length) else none) = some (bs, rest)
  rw [if_pos (by simp), List.take_left, List.drop_left]

/-- Reads bytes behind their number. -/
def blob : Reader (List UInt8) := do
  let n ← long
  chunk n

theorem reads_blob {bs : List UInt8} (h : bs.length < UInt32.size) :
    Reads blob (Link.littleEndian (UInt32.ofNat bs.length) ++ bs) bs :=
  (reads_long h).bind (reads_chunk bs)

/-! ## Text -/

/-- The text that some bytes encode in UTF-8. -/
def text? (bytes : List UInt8) : Option String := String.fromUTF8? ⟨bytes.toArray⟩

theorem text?_utf8 (s : String) : text? (Text.utf8 s) = some s := by
  have h : (⟨(Text.utf8 s).toArray⟩ : ByteArray) = s.toByteArray := by simp [Text.utf8]
  unfold text? String.fromUTF8?
  rw [h, dif_pos s.isValidUTF8]
  rfl

/-- Reads a text behind its length in bytes. -/
def text : Reader String := do
  let bytes ← blob
  StateT.lift (text? bytes)

theorem length_utf8 (s : String) : (Text.utf8 s).length = s.utf8ByteSize := rfl

theorem reads_text {s : String} (h : s.utf8ByteSize < UInt32.size) :
    Reads text (Link.nameBytes s) s := by
  have hb : Reads blob (Link.nameBytes s) (Text.utf8 s) := by
    rw [← length_utf8] at h
    exact reads_blob h
  rw [← List.append_nil (Link.nameBytes s)]
  exact hb.bind (Reads.lift (text?_utf8 s))

end Sm83Asm.Bytes
