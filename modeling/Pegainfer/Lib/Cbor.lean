/-
CBOR items of definite length, their canonical bytes and their reader.

An item starts with a head: a major type and an argument, in the byte itself or in the one, two, four or eight bytes
after it. The canonical head takes the fewest bytes; the reader takes any.
- `readHead_head`, `readHead_frugal`: a canonical head is read back, and is the shortest that is.
- `readItem_encode`: an item is read back from its canonical bytes, whatever follows them.
- `encode_canonical`: those bytes are the only shortest ones that are read as the item.
- `encode_inj`: items with the same bytes are the same.
-/
import Mathlib.Tactic
import Pegainfer.Lib.Codec

namespace Pegainfer.Lib.Cbor

open Pegainfer.Lib

/-! ## Heads -/

/-- the argument in the `2 ^ k` bytes after the first -/
def longHead (major k n : ℕ) : List UInt8 := UInt8.ofNat (32 * major + 24 + k) :: bigEndian (2 ^ k) n

/-- the shortest head -/
def head (major n : ℕ) : List UInt8 :=
  if n < 24 then [UInt8.ofNat (32 * major + n)]
  else if n < 256 then longHead major 0 n
  else if n < 256 ^ 2 then longHead major 1 n
  else if n < 256 ^ 4 then longHead major 2 n
  else longHead major 3 n

/-- the major type and the argument, in whichever width they stand -/
def readHead : Reader (ℕ × ℕ) := do
  let first ← readExact 1
  let major := ofBigEndian first / 32
  let info := ofBigEndian first % 32
  if info < 24 then pure (major, info)
  else if info < 28 then do
    let bytes ← readExact (2 ^ (info - 24))
    pure (major, ofBigEndian bytes)
  else throw "reserved head"

variable {major k n : ℕ} {rest : List UInt8}

theorem readExact_append (bytes rest : List UInt8) :
    readExact bytes.length (bytes ++ rest) = .ok (bytes, rest) :=
  undoes_writeAll_iff.1 (undoes_bytes bytes) rest

theorem ofBigEndian_byte (byte : UInt8) : ofBigEndian [byte] = byte.toNat := by simp [ofBigEndian, ofLittleEndian]

theorem readHead_short (hmajor : major < 8) (hn : n < 24) :
    readHead (UInt8.ofNat (32 * major + n) :: rest) = .ok ((major, n), rest) := by
  have hbyte : ofBigEndian [UInt8.ofNat (32 * major + n)] = 32 * major + n := by
    rw [ofBigEndian_byte, UInt8.toNat_ofNat']
    omega
  refine bind_ok.2 ⟨[UInt8.ofNat (32 * major + n)], rest, readExact_append [_] rest, ?_⟩
  rw [hbyte, show (32 * major + n) / 32 = major by omega, show (32 * major + n) % 32 = n by omega, if_pos hn]
  rfl

theorem readHead_long (hmajor : major < 8) (hk : k < 4) (hn : n < 256 ^ 2 ^ k) :
    readHead (longHead major k n ++ rest) = .ok ((major, n), rest) := by
  have hbyte : ofBigEndian [UInt8.ofNat (32 * major + 24 + k)] = 32 * major + 24 + k := by
    rw [ofBigEndian_byte, UInt8.toNat_ofNat']
    omega
  refine bind_ok.2 ⟨[UInt8.ofNat (32 * major + 24 + k)], bigEndian (2 ^ k) n ++ rest, readExact_append [_] _, ?_⟩
  rw [hbyte, show (32 * major + 24 + k) / 32 = major by omega, show (32 * major + 24 + k) % 32 = 24 + k by omega,
    if_neg (by omega), if_pos (by omega), Nat.add_sub_cancel_left]
  refine bind_ok.2 ⟨bigEndian (2 ^ k) n, rest, ?_, ?_⟩
  · have h := readExact_append (bigEndian (2 ^ k) n) rest
    rwa [length_bigEndian] at h
  · rw [ofBigEndian_bigEndian hn]
    rfl

theorem readHead_head (hmajor : major < 8) (hn : n < 2 ^ 64) (rest : List UInt8) :
    readHead (head major n ++ rest) = .ok ((major, n), rest) := by
  unfold head
  split_ifs with h₁ h₂ h₃ h₄
  · exact readHead_short hmajor h₁
  · exact readHead_long hmajor (by decide) h₂
  · exact readHead_long hmajor (by decide) h₃
  · exact readHead_long hmajor (by decide) h₄
  · exact readHead_long hmajor (by decide) hn

theorem length_longHead : (longHead major k n).length = 2 ^ k + 1 := by simp [longHead]

/-- a head that holds its argument in `2 ^ k` bytes is the shortest, or longer than it -/
theorem noShorter_longHead (hk : k < 4) (hn : n < 256 ^ 2 ^ k) :
    NoShorter (head major n) (longHead major k n) := by
  unfold NoShorter head
  have hfour : k = 0 ∨ k = 1 ∨ k = 2 ∨ k = 3 := by omega
  rcases hfour with rfl | rfl | rfl | rfl <;> split_ifs <;> simp_all [length_longHead]

theorem readHead_frugal : Frugal readHead fun argument => head argument.1 argument.2 := by
  rintro bytes ⟨major, n⟩ rest h
  obtain ⟨first, tail, hfirst, htail⟩ := bind_ok.1 h
  obtain ⟨rfl, hone⟩ := readExact_ok hfirst
  obtain ⟨byte, rfl⟩ := List.length_eq_one_iff.1 hone
  have hbyte : byte.toNat < 256 := byte.toNat_lt
  rw [ofBigEndian_byte] at htail
  split_ifs at htail with hshort hlong
  · obtain ⟨⟨rfl, rfl⟩, rfl⟩ := Prod.mk.inj (Except.ok.inj htail)
    refine ⟨[byte], rfl, .inl ?_⟩
    change [byte] = head (byte.toNat / 32) (byte.toNat % 32)
    rw [head, if_pos hshort, Nat.div_add_mod, UInt8.ofNat_toNat]
  · obtain ⟨argument, rest', hargument, hlast⟩ := bind_ok.1 htail
    obtain ⟨⟨rfl, rfl⟩, rfl⟩ := Prod.mk.inj (Except.ok.inj hlast)
    obtain ⟨rfl, hlen⟩ := readExact_ok hargument
    obtain ⟨k, hinfo⟩ := Nat.exists_eq_add_of_le (not_lt.1 hshort)
    rw [hinfo, Nat.add_sub_cancel_left] at hlen
    have hwidth := ofBigEndian_lt argument
    rw [hlen] at hwidth
    have hhead : byte :: argument = longHead (byte.toNat / 32) k (ofBigEndian argument) := by
      rw [longHead, ← hlen, bigEndian_ofBigEndian,
        show 32 * (byte.toNat / 32) + 24 + k = byte.toNat by omega, UInt8.ofNat_toNat]
    refine ⟨byte :: argument, rfl, ?_⟩
    rw [hhead]
    exact noShorter_longHead (by omega) hwidth
  · cases htail

/-! ## Items -/

inductive Item
  | uint (n : ℕ)
  | bytes (content : List UInt8)
  | text (utf8 : List UInt8)
  | array (items : List Item)
  | null

mutual

/-- the canonical bytes: every head the shortest -/
def encode : Item → List UInt8
  | .uint n => head 0 n
  | .bytes content => head 2 content.length ++ content
  | .text utf8 => head 3 utf8.length ++ utf8
  | .array items => head 4 items.length ++ encodeAll items
  | .null => head 7 22

def encodeAll : List Item → List UInt8
  | [] => []
  | item :: items => encode item ++ encodeAll items

end

/-- an item of at most `depth` nested levels -/
def readItem : ℕ → Reader Item
  | 0 => throw "nested too deep"
  | depth + 1 => do
    let (major, n) ← readHead
    match major with
    | 0 => pure (.uint n)
    | 2 => do
      let content ← readExact n
      pure (.bytes content)
    | 3 => do
      let utf8 ← readExact n
      pure (.text utf8)
    | 4 => do
      let items ← readMany (readItem depth) n
      pure (.array items)
    | 7 => if n = 22 then pure .null else throw "unsupported simple value"
    | _ => throw "unsupported major type"

/-- every argument fits eight bytes, and at most `depth` levels are nested -/
inductive Sized : ℕ → Item → Prop
  | uint {depth n : ℕ} (fits : n < 2 ^ 64) : Sized (depth + 1) (.uint n)
  | bytes {depth : ℕ} {content : List UInt8} (fits : content.length < 2 ^ 64) : Sized (depth + 1) (.bytes content)
  | text {depth : ℕ} {utf8 : List UInt8} (fits : utf8.length < 2 ^ 64) : Sized (depth + 1) (.text utf8)
  | array {depth : ℕ} {items : List Item} (fits : items.length < 2 ^ 64) (each : ∀ item ∈ items, Sized depth item) :
    Sized (depth + 1) (.array items)
  | null {depth : ℕ} : Sized (depth + 1) .null

theorem encodeAll_eq_flatMap (items : List Item) : encodeAll items = items.flatMap encode := by
  induction items with
  | nil => rfl
  | cons item items ih => rw [encodeAll, List.flatMap_cons, ih]

variable {depth : ℕ} {item item' : Item} {items : List Item}

theorem readMany_encodeAll (h : ∀ item ∈ items, ∀ rest, readItem depth (encode item ++ rest) = .ok (item, rest))
    (rest : List UInt8) : readMany (readItem depth) items.length (encodeAll items ++ rest) = .ok (items, rest) := by
  have hmany := undoes_many fun item hin => undoes_writeAll_iff.2 (h item hin)
  rw [writeMany_writeAll, ← encodeAll_eq_flatMap] at hmany
  exact undoes_writeAll_iff.1 hmany rest

/-- **Read back.** -/
theorem readItem_encode (h : Sized depth item) (rest : List UInt8) :
    readItem depth (encode item ++ rest) = .ok (item, rest) := by
  induction h generalizing rest with
  | uint fits => exact bind_ok.2 ⟨_, _, readHead_head (by decide) fits rest, rfl⟩
  | @bytes _ content fits =>
    rw [encode, List.append_assoc]
    exact bind_ok.2 ⟨_, _, readHead_head (by decide) fits _, bind_ok.2 ⟨_, _, readExact_append content rest, rfl⟩⟩
  | @text _ utf8 fits =>
    rw [encode, List.append_assoc]
    exact bind_ok.2 ⟨_, _, readHead_head (by decide) fits _, bind_ok.2 ⟨_, _, readExact_append utf8 rest, rfl⟩⟩
  | array fits each ih =>
    rw [encode, List.append_assoc]
    exact bind_ok.2 ⟨_, _, readHead_head (by decide) fits _,
      bind_ok.2 ⟨_, _, readMany_encodeAll (fun item hin => ih item hin) rest, rfl⟩⟩
  | null => exact bind_ok.2 ⟨_, _, readHead_head (by decide) (by decide) rest, rfl⟩

/-- no item is read from fewer bytes than its canonical ones, nor from others as many -/
theorem readItem_frugal (depth : ℕ) : Frugal (readItem depth) encode := by
  induction depth with
  | zero =>
    intro bytes item rest h
    cases h
  | succ depth ih =>
    intro bytes item rest h
    obtain ⟨⟨major, n⟩, tail, hhead, htail⟩ := bind_ok.1 h
    obtain ⟨used, rfl, hused⟩ := readHead_frugal bytes _ tail hhead
    dsimp only at htail hused
    split at htail
    · obtain ⟨rfl, rfl⟩ := Prod.mk.inj (Except.ok.inj htail)
      exact ⟨used, rfl, hused⟩
    · obtain ⟨content, rest', hcontent, hlast⟩ := bind_ok.1 htail
      obtain ⟨rfl, rfl⟩ := Prod.mk.inj (Except.ok.inj hlast)
      obtain ⟨rfl, rfl⟩ := readExact_ok hcontent
      exact ⟨used ++ content, by rw [List.append_assoc], hused.append (.inl rfl)⟩
    · obtain ⟨utf8, rest', hutf8, hlast⟩ := bind_ok.1 htail
      obtain ⟨rfl, rfl⟩ := Prod.mk.inj (Except.ok.inj hlast)
      obtain ⟨rfl, rfl⟩ := readExact_ok hutf8
      exact ⟨used ++ utf8, by rw [List.append_assoc], hused.append (.inl rfl)⟩
    · obtain ⟨items, rest', hitems, hlast⟩ := bind_ok.1 htail
      obtain ⟨rfl, rfl⟩ := Prod.mk.inj (Except.ok.inj hlast)
      obtain ⟨rfl, used', rfl, hused'⟩ := ih.many n tail items rest' hitems
      refine ⟨used ++ used', by rw [List.append_assoc], ?_⟩
      rw [encode, encodeAll_eq_flatMap]
      exact hused.append hused'
    · split_ifs at htail with hnull
      · obtain ⟨rfl, rfl⟩ := Prod.mk.inj (Except.ok.inj htail)
        rw [hnull] at hused
        exact ⟨used, rfl, hused⟩
      · cases htail
    · cases htail

/-- `bytes` are read as `item`, and no others as short are -/
structure Canonical (depth : ℕ) (item : Item) (bytes : List UInt8) : Prop where
  reads : readItem depth bytes = .ok (item, [])
  shortest : ∀ other, readItem depth other = .ok (item, []) → NoShorter bytes other

/-- **The canonical bytes are the only shortest ones.** -/
theorem encode_canonical (h : Sized depth item) : Canonical depth item (encode item) := by
  refine ⟨?_, fun other hother => ?_⟩
  · have hread := readItem_encode h []
    rwa [List.append_nil] at hread
  · obtain ⟨used, rfl, hused⟩ := readItem_frugal depth other item [] hother
    rwa [List.append_nil]

/-- items with the same bytes are the same, whatever follows the bytes -/
theorem encode_inj {rest rest' : List UInt8} (h : Sized depth item) (h' : Sized depth item')
    (heq : encode item ++ rest = encode item' ++ rest') : item = item' ∧ rest = rest' := by
  have hread := readItem_encode h rest
  rw [heq, readItem_encode h' rest'] at hread
  obtain ⟨rfl, rfl⟩ := Prod.mk.inj (Except.ok.inj hread)
  exact ⟨rfl, rfl⟩

end Pegainfer.Lib.Cbor
