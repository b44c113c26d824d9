/-
Block keys shared with vLLM: a hash chain over the canonical CBOR of each block.

A block's key is the digest of `(parent key, token ids, null)`; the first block chains off the digest of the seed. Both
sides of a transfer derive the keys from the tokens alone, so a key must stand for the tokens up to the end of its block
and for nothing else. The digest is a parameter.
- `writeHead_eq`: the head writer picks the shortest of the five widths.
- `hashInput_canonical`, `hashInput_inj`: what is hashed is the canonical encoding of the block, and of no other.
- `keyChain_identifies`: the keys of a sequence, those of its prefixes, and what equal keys mean.
-/
import Mathlib.Tactic
import Pegainfer.Lib.Cbor
import Pegainfer.Lib.HashChain

namespace Pegainfer.KvOffload

open Pegainfer.Lib

/-! ## Model -/

/-- the width of a key: an `xxh3_128` digest -/
def vllmHashBytes : ℕ := 16

abbrev VllmHash := { bytes : List UInt8 // bytes.length = vllmHashBytes }

/-- `u128::to_be_bytes` -/
def toBeBytes (digest : BitVec 128) : VllmHash := ⟨bigEndian 16 digest.toNat, length_bigEndian 16 _⟩

def majorUint : UInt8 := 0

def majorBstr : UInt8 := 2

def majorTstr : UInt8 := 3

def majorArray : UInt8 := 4

def cborNull : UInt8 := 0xf6

/-- major type and unsigned argument, in the fewest bytes -/
def writeHead (out : List UInt8) (major : UInt8) (value : UInt64) : List UInt8 :=
  let m := major <<< 5
  if value ≤ 23 then out ++ [m ||| value.toUInt8]
  else if value ≤ 0xff then out ++ [m ||| 0x18] ++ [value.toUInt8]
  else if value ≤ 0xffff then out ++ [m ||| 0x19] ++ bigEndian 2 value.toUInt16.toNat
  else if value ≤ 0xffffffff then out ++ [m ||| 0x1a] ++ bigEndian 4 value.toUInt32.toNat
  else out ++ [m ||| 0x1b] ++ bigEndian 8 value.toNat

/-- the hashed bytes of a block: `[bstr(parent), [uint, ...], null]` -/
def hashInput (parent : VllmHash) (tokenIds : List UInt32) : List UInt8 :=
  let buf := writeHead [] majorArray 3
  let buf := writeHead buf majorBstr (UInt64.ofNat vllmHashBytes)
  let buf := buf ++ parent.val
  let buf := writeHead buf majorArray (UInt64.ofNat tokenIds.length)
  let buf := tokenIds.foldl (fun buf t => writeHead buf majorUint t.toUInt64) buf
  buf ++ [cborNull]

structure VllmBlockHasher where
  noneHash : VllmHash
  blockSize : UInt64
  positive : 0 < blockSize

namespace VllmBlockHasher

variable (xxh3_128 : List UInt8 → BitVec 128)

/-- the chain root is the digest of the seed's text -/
def new (pythonHashSeed : String) (blockSize : UInt64) : Except String VllmBlockHasher :=
  if h : 0 < blockSize then
    let utf8 := pythonHashSeed.toUTF8.data.toList
    let seedCbor := writeHead [] majorTstr (UInt64.ofNat utf8.length) ++ utf8
    .ok ⟨toBeBytes (xxh3_128 seedCbor), blockSize, h⟩
  else .error "block_size must be positive"

def hashBlock (hasher : VllmBlockHasher) (parent : Option VllmHash) (tokenIds : List UInt32) : VllmHash :=
  toBeBytes (xxh3_128 (hashInput (parent.getD hasher.noneHash) tokenIds))

/-- the loop over the full blocks -/
def keyChainFrom (hasher : VllmBlockHasher) : Option VllmHash → List (List UInt32) → List (List UInt8)
  | _, [] => []
  | parent, chunk :: chunks =>
    let h := hashBlock xxh3_128 hasher parent chunk
    h.val :: keyChainFrom hasher (some h) chunks

/-- one key for each full block -/
def keyChain (hasher : VllmBlockHasher) (tokenIds : List UInt32) : List (List UInt8) :=
  keyChainFrom xxh3_128 hasher none (chunksExact hasher.blockSize.toNat tokenIds)

end VllmBlockHasher

/-! ## Heads -/

variable {major : UInt8} {out : List UInt8} {value : UInt64}

/-- the low five bits are free for the argument -/
theorem major_or {low : UInt8} (hmajor : major.toNat < 8) (hlow : low.toNat < 32) :
    major <<< 5 ||| low = UInt8.ofNat (32 * major.toNat + low.toNat) := by
  have hshift : (major <<< 5).toNat = major.toNat <<< 5 := by
    rw [UInt8.toNat_shiftLeft]
    change major.toNat <<< 5 % 2 ^ 8 = major.toNat <<< 5
    rw [Nat.shiftLeft_eq]
    omega
  apply UInt8.toNat_inj.1
  rw [UInt8.toNat_or, hshift, ← Nat.shiftLeft_add_eq_or_of_lt hlow, Nat.shiftLeft_eq, UInt8.toNat_ofNat']
  omega

theorem longHead_eq (hmajor : major.toNat < 8) (k n : ℕ) (hk : k < 4) :
    out ++ [major <<< 5 ||| UInt8.ofNat (24 + k)] ++ bigEndian (2 ^ k) n = out ++ Cbor.longHead major.toNat k n := by
  have hlow : (UInt8.ofNat (24 + k)).toNat = 24 + k := by
    rw [UInt8.toNat_ofNat']
    omega
  rw [major_or hmajor (by omega), hlow, Cbor.longHead, List.append_assoc, ← Nat.add_assoc]
  rfl

/-- **The head is the shortest.** -/
theorem writeHead_eq (hmajor : major.toNat < 8) :
    writeHead out major value = out ++ Cbor.head major.toNat value.toNat := by
  have hvalue : value.toNat < 2 ^ 64 := value.toNat_lt
  have hle : ∀ bound : UInt64, value ≤ bound ↔ value.toNat ≤ bound.toNat := fun _ => UInt64.le_iff_toNat_le
  unfold writeHead Cbor.head
  by_cases h₁ : value ≤ 23
  · have hn : value.toNat ≤ 23 := (hle 23).1 h₁
    have hbyte : value.toUInt8.toNat = value.toNat := by
      rw [UInt64.toNat_toUInt8]
      omega
    rw [if_pos h₁, if_pos (by omega : value.toNat < 24), major_or hmajor (by omega), hbyte]
  have hn₁ : ¬ value.toNat ≤ 23 := fun hn => h₁ ((hle 23).2 hn)
  rw [if_neg h₁, if_neg (by omega : ¬ value.toNat < 24)]
  by_cases h₂ : value ≤ 0xff
  · have hn : value.toNat ≤ 255 := (hle 0xff).1 h₂
    have hbyte : [value.toUInt8] = bigEndian (2 ^ 0) value.toNat := rfl
    rw [if_pos h₂, if_pos (by omega : value.toNat < 256), hbyte]
    exact longHead_eq hmajor 0 _ (by decide)
  have hn₂ : ¬ value.toNat ≤ 255 := fun hn => h₂ ((hle 0xff).2 hn)
  rw [if_neg h₂, if_neg (by omega : ¬ value.toNat < 256)]
  by_cases h₃ : value ≤ 0xffff
  · have hn : value.toNat ≤ 65535 := (hle 0xffff).1 h₃
    have hwidth : value.toUInt16.toNat = value.toNat := by
      rw [UInt64.toNat_toUInt16]
      omega
    rw [if_pos h₃, if_pos (by omega : value.toNat < 256 ^ 2), hwidth]
    exact longHead_eq hmajor 1 _ (by decide)
  have hn₃ : ¬ value.toNat ≤ 65535 := fun hn => h₃ ((hle 0xffff).2 hn)
  rw [if_neg h₃, if_neg (by omega : ¬ value.toNat < 256 ^ 2)]
  by_cases h₄ : value ≤ 0xffffffff
  · have hn : value.toNat ≤ 4294967295 := (hle 0xffffffff).1 h₄
    have hwidth : value.toUInt32.toNat = value.toNat := by
      rw [UInt64.toNat_toUInt32]
      omega
    rw [if_pos h₄, if_pos (by omega : value.toNat < 256 ^ 4), hwidth]
    exact longHead_eq hmajor 2 _ (by decide)
  have hn₄ : ¬ value.toNat ≤ 4294967295 := fun hn => h₄ ((hle 0xffffffff).2 hn)
  rw [if_neg h₄, if_neg (by omega : ¬ value.toNat < 256 ^ 4)]
  exact longHead_eq hmajor 3 _ (by decide)

/-! ## What is hashed -/

/-- the block as a CBOR item -/
def blockItem (parent : VllmHash) (tokenIds : List UInt32) : Cbor.Item :=
  .array [.bytes parent.val, .array (tokenIds.map fun t => .uint t.toNat), .null]

variable {parent parent' : VllmHash} {tokenIds tokenIds' : List UInt32}

theorem foldl_writeHead (tokenIds : List UInt32) (out : List UInt8) :
    tokenIds.foldl (fun buf t => writeHead buf majorUint t.toUInt64) out =
      out ++ Cbor.encodeAll (tokenIds.map fun t => .uint t.toNat) := by
  induction tokenIds generalizing out with
  | nil => simp [Cbor.encodeAll]
  | cons t tokenIds ih =>
    rw [List.foldl_cons, ih, writeHead_eq (by decide), List.map_cons, Cbor.encodeAll, Cbor.encode, List.append_assoc,
      UInt32.toNat_toUInt64]
    rfl

/-- **What is hashed is the canonical encoding of the block.** -/
theorem hashInput_eq (hlen : tokenIds.length < 2 ^ 64) :
    hashInput parent tokenIds = Cbor.encode (blockItem parent tokenIds) := by
  have hparent : parent.val.length = vllmHashBytes := parent.property
  have hcount : (UInt64.ofNat tokenIds.length).toNat = tokenIds.length := by
    rw [UInt64.toNat_ofNat']
    exact Nat.mod_eq_of_lt hlen
  simp only [hashInput]
  rw [foldl_writeHead, writeHead_eq (by decide), writeHead_eq (by decide), writeHead_eq (by decide), hcount]
  simp only [blockItem, Cbor.encode, Cbor.encodeAll, hparent, List.length_map, List.append_nil, List.nil_append,
    List.append_assoc, List.length_cons, List.length_nil]
  rfl

-- token ids above 65535 take five bytes
example : hashInput (toBeBytes 0x1ebe36576dcb573f26b99533a20aaeca) [1, 100000] =
    [0x83, 0x50, 0x1e, 0xbe, 0x36, 0x57, 0x6d, 0xcb, 0x57, 0x3f, 0x26, 0xb9, 0x95, 0x33, 0xa2, 0x0a, 0xae, 0xca, 0x82,
      0x01, 0x1a, 0x00, 0x01, 0x86, 0xa0, 0xf6] := by decide

theorem blockItem_sized (hlen : tokenIds.length < 2 ^ 64) : Cbor.Sized 3 (blockItem parent tokenIds) := by
  refine .array (show 3 < 2 ^ 64 by decide) fun item hin => ?_
  rcases List.mem_cons.1 hin with rfl | hin
  · exact .bytes (by rw [parent.property]; decide)
  rcases List.mem_cons.1 hin with rfl | hin
  · refine .array (by rwa [List.length_map]) fun item hin => ?_
    obtain ⟨t, -, rfl⟩ := List.mem_map.1 hin
    exact .uint (t.toNat_lt.trans (by decide))
  rcases List.mem_cons.1 hin with rfl | hin
  · exact .null
  · cases hin

theorem hashInput_canonical (hlen : tokenIds.length < 2 ^ 64) :
    Cbor.Canonical 3 (blockItem parent tokenIds) (hashInput parent tokenIds) :=
  hashInput_eq hlen ▸ Cbor.encode_canonical (blockItem_sized hlen)

theorem blockItem_inj (h : blockItem parent tokenIds = blockItem parent' tokenIds') :
    parent = parent' ∧ tokenIds = tokenIds' := by
  unfold blockItem at h
  injection h with hitems
  obtain ⟨hparent, hrest⟩ := List.cons.inj hitems
  obtain ⟨htokens, -⟩ := List.cons.inj hrest
  injection hparent with hbytes
  injection htokens with hmap
  refine ⟨Subtype.ext hbytes, List.map_injective_iff.2 (fun t t' heq => ?_) hmap⟩
  injection heq with hnat
  exact UInt32.toNat_inj.1 hnat

/-- **No two blocks share their bytes.** -/
theorem hashInput_inj (hlen : tokenIds.length < 2 ^ 64) (hlen' : tokenIds'.length < 2 ^ 64)
    (heq : hashInput parent tokenIds = hashInput parent' tokenIds') : parent = parent' ∧ tokenIds = tokenIds' := by
  rw [hashInput_eq hlen, hashInput_eq hlen'] at heq
  exact blockItem_inj (Cbor.encode_inj (blockItem_sized hlen) (blockItem_sized hlen') (congrArg (· ++ []) heq)).1

/-- the root is the digest of the seed as a CBOR text -/
theorem VllmBlockHasher.new_ok (xxh3_128 : List UInt8 → BitVec 128) {pythonHashSeed : String} {blockSize : UInt64}
    (h : 0 < blockSize) (hlen : pythonHashSeed.toUTF8.data.toList.length < 2 ^ 64) :
    VllmBlockHasher.new xxh3_128 pythonHashSeed blockSize =
      .ok ⟨toBeBytes (xxh3_128 (Cbor.encode (.text pythonHashSeed.toUTF8.data.toList))), blockSize, h⟩ := by
  have hcount : (UInt64.ofNat pythonHashSeed.toUTF8.data.toList.length).toNat =
      pythonHashSeed.toUTF8.data.toList.length := by
    rw [UInt64.toNat_ofNat']
    exact Nat.mod_eq_of_lt hlen
  rw [VllmBlockHasher.new, dif_pos h]
  dsimp only
  rw [writeHead_eq (by decide), hcount]
  rfl

/-! ## The chain -/

namespace VllmBlockHasher

variable {xxh3_128 : List UInt8 → BitVec 128} {hasher : VllmBlockHasher} {s t : List UInt32}

/-- a block's key from its parent's -/
def nextKey (xxh3_128 : List UInt8 → BitVec 128) (parent : VllmHash) (tokenIds : List UInt32) : VllmHash :=
  toBeBytes (xxh3_128 (hashInput parent tokenIds))

/-- the byte strings hashed along a sequence's chain -/
def hashedInputs (xxh3_128 : List UInt8 → BitVec 128) (hasher : VllmBlockHasher) (tokenIds : List UInt32) :
    List (List UInt8) :=
  (chainLinks (nextKey xxh3_128) hasher.noneHash (chunksExact hasher.blockSize.toNat tokenIds)).map
    fun link => hashInput link.1 link.2

theorem keyChainFrom_eq (parent : Option VllmHash) (chunks : List (List UInt32)) :
    keyChainFrom xxh3_128 hasher parent chunks =
      (chain (nextKey xxh3_128) (parent.getD hasher.noneHash) chunks).map Subtype.val := by
  induction chunks generalizing parent with
  | nil => rfl
  | cons chunk chunks ih =>
    rw [keyChainFrom, chain, List.map_cons, ih]
    rfl

theorem keyChain_eq (tokenIds : List UInt32) :
    keyChain xxh3_128 hasher tokenIds =
      (chain (nextKey xxh3_128) hasher.noneHash (chunksExact hasher.blockSize.toNat tokenIds)).map Subtype.val :=
  keyChainFrom_eq none _

theorem toBeBytes_inj {digest digest' : BitVec 128} (h : toBeBytes digest = toBeBytes digest') : digest = digest' := by
  have hbytes : bigEndian 16 digest.toNat = bigEndian 16 digest'.toNat := congrArg Subtype.val h
  have hnat := congrArg ofBigEndian hbytes
  rw [ofBigEndian_bigEndian digest.isLt, ofBigEndian_bigEndian digest'.isLt] at hnat
  exact BitVec.eq_of_toNat_eq hnat

theorem chunk_lt {chunk : List UInt32} (h : chunk ∈ chunksExact hasher.blockSize.toNat s) : chunk.length < 2 ^ 64 := by
  rw [length_of_mem_chunksExact h]
  exact hasher.blockSize.toNat_lt

/-- the links met are told apart when the digest tells their bytes apart -/
theorem links_injective
    (hinj : Set.InjOn xxh3_128 {input | input ∈ hashedInputs xxh3_128 hasher s ∨ input ∈ hashedInputs xxh3_128 hasher t}) :
    ∀ x ∈ chainLinks (nextKey xxh3_128) hasher.noneHash (chunksExact hasher.blockSize.toNat s),
      ∀ y ∈ chainLinks (nextKey xxh3_128) hasher.noneHash (chunksExact hasher.blockSize.toNat t),
        nextKey xxh3_128 x.1 x.2 = nextKey xxh3_128 y.1 y.2 → x = y := by
  intro x hx y hy heq
  have hbytes := hinj (.inl (List.mem_map_of_mem hx)) (.inr (List.mem_map_of_mem hy)) (toBeBytes_inj heq)
  obtain ⟨hparent, htokens⟩ := hashInput_inj (chunk_lt (block_of_mem_chainLinks hx))
    (chunk_lt (block_of_mem_chainLinks hy)) hbytes
  exact Prod.ext hparent htokens

/-- a block that ends within the sequence -/
theorem lt_div_iff (i : ℕ) : i < s.length / hasher.blockSize.toNat ↔ (i + 1) * hasher.blockSize.toNat ≤ s.length :=
  Nat.le_div_iff_mul_le (UInt64.lt_iff_toNat_lt.1 hasher.positive)

theorem keys_identify
    (hinj : Set.InjOn xxh3_128 {input | input ∈ hashedInputs xxh3_128 hasher s ∨ input ∈ hashedInputs xxh3_128 hasher t})
    (i : ℕ) :
    (∃ key, (keyChain xxh3_128 hasher s)[i]? = some key ∧ (keyChain xxh3_128 hasher t)[i]? = some key) ↔
      (i + 1) * hasher.blockSize.toNat ≤ s.length ∧ (i + 1) * hasher.blockSize.toNat ≤ t.length ∧
        s.take ((i + 1) * hasher.blockSize.toNat) = t.take ((i + 1) * hasher.blockSize.toNat) := by
  have hchain := chain_identifies (i := i) (links_injective hinj)
  rw [length_chunksExact, length_chunksExact, lt_div_iff, lt_div_iff] at hchain
  rw [keyChain_eq, keyChain_eq, List.getElem?_map, List.getElem?_map]
  constructor
  · rintro ⟨key, hs, ht⟩
    obtain ⟨digest, hdigest, rfl⟩ := Option.map_eq_some_iff.1 hs
    obtain ⟨digest', hdigest', heq⟩ := Option.map_eq_some_iff.1 ht
    obtain rfl := Subtype.ext heq
    obtain ⟨hs', ht', htake⟩ := hchain.1 ⟨_, hdigest, hdigest'⟩
    exact ⟨hs', ht', (take_chunksExact_eq_iff (lt_div_iff i |>.2 hs') (lt_div_iff i |>.2 ht')).1 htake⟩
  · rintro ⟨hs, ht, htake⟩
    obtain ⟨digest, hs', ht'⟩ := hchain.2
      ⟨hs, ht, (take_chunksExact_eq_iff (lt_div_iff i |>.2 hs) (lt_div_iff i |>.2 ht)).2 htake⟩
    exact ⟨digest.val, by rw [hs']; rfl, by rw [ht']; rfl⟩

/-- **The keys identify prefixes.** For every hasher: a block is hashed as its canonical encoding, which no other block
shares; a sequence has one key for each full block, and a prefix's keys are a prefix of its keys; and where the digest
tells apart what is hashed, keys at one place are equal exactly when the tokens up to the end of their block are. -/
theorem keyChain_identifies (xxh3_128 : List UInt8 → BitVec 128) (hasher : VllmBlockHasher) :
    (∀ parent tokenIds, tokenIds.length < 2 ^ 64 →
      Cbor.Canonical 3 (blockItem parent tokenIds) (hashInput parent tokenIds)) ∧
    (∀ parent parent' tokenIds tokenIds', tokenIds.length < 2 ^ 64 → tokenIds'.length < 2 ^ 64 →
      hashInput parent tokenIds = hashInput parent' tokenIds' → parent = parent' ∧ tokenIds = tokenIds') ∧
    (∀ s, (keyChain xxh3_128 hasher s).length = s.length / hasher.blockSize.toNat) ∧
    (∀ s t, s <+: t → keyChain xxh3_128 hasher s <+: keyChain xxh3_128 hasher t) ∧
    ∀ s t, Set.InjOn xxh3_128
        {input | input ∈ hashedInputs xxh3_128 hasher s ∨ input ∈ hashedInputs xxh3_128 hasher t} →
      ∀ i, (∃ key, (keyChain xxh3_128 hasher s)[i]? = some key ∧ (keyChain xxh3_128 hasher t)[i]? = some key) ↔
        (i + 1) * hasher.blockSize.toNat ≤ s.length ∧ (i + 1) * hasher.blockSize.toNat ≤ t.length ∧
          s.take ((i + 1) * hasher.blockSize.toNat) = t.take ((i + 1) * hasher.blockSize.toNat) := by
  refine ⟨fun _ _ hlen => hashInput_canonical hlen, fun _ _ _ _ hlen hlen' heq => hashInput_inj hlen hlen' heq,
    fun s => ?_, fun s t hst => ?_, fun s t hinj => keys_identify hinj⟩
  · rw [keyChain_eq, List.length_map, length_chain, length_chunksExact]
  · rw [keyChain_eq, keyChain_eq]
    exact (chain_starts (chunksExact_starts hst)).map _

/-- the digests of two blocks of four tokens below the seed `0` -/
def capturedDigests (input : List UInt8) : BitVec 128 :=
  if input = hashInput (toBeBytes 0x1ebe36576dcb573f26b99533a20aaeca) [1, 2, 3, 4] then
    0x0a8577df5ee3430515a8cc1f6e3ac52e
  else if input = hashInput (toBeBytes 0x0a8577df5ee3430515a8cc1f6e3ac52e) [5, 6, 7, 8] then
    0xd152782cb4d753bde718a811a3b75e23
  else 0x1ebe36576dcb573f26b99533a20aaeca

theorem keyChain_identifies_captured :
    ∀ i, (∃ key,
        (keyChain capturedDigests ⟨toBeBytes 0x1ebe36576dcb573f26b99533a20aaeca, 4, by decide⟩
          [1, 2, 3, 4, 5, 6, 7, 8])[i]? = some key ∧
        (keyChain capturedDigests ⟨toBeBytes 0x1ebe36576dcb573f26b99533a20aaeca, 4, by decide⟩
          [1, 2, 3, 4, 5, 6, 7, 8, 9, 10])[i]? = some key) ↔
      (i + 1) * 4 ≤ 8 ∧ (i + 1) * 4 ≤ 10 ∧
        [1, 2, 3, 4, 5, 6, 7, 8].take ((i + 1) * 4) = ([1, 2, 3, 4, 5, 6, 7, 8, 9, 10] : List UInt32).take ((i + 1) * 4) := by
  refine (keyChain_identifies capturedDigests ⟨toBeBytes 0x1ebe36576dcb573f26b99533a20aaeca, 4, by decide⟩).2.2.2.2
    [1, 2, 3, 4, 5, 6, 7, 8] [1, 2, 3, 4, 5, 6, 7, 8, 9, 10] ?_
  have hinputs : ∀ tokens ∈ ([[1, 2, 3, 4, 5, 6, 7, 8], [1, 2, 3, 4, 5, 6, 7, 8, 9, 10]] : List (List UInt32)),
      hashedInputs capturedDigests ⟨toBeBytes 0x1ebe36576dcb573f26b99533a20aaeca, 4, by decide⟩ tokens =
        [hashInput (toBeBytes 0x1ebe36576dcb573f26b99533a20aaeca) [1, 2, 3, 4],
          hashInput (toBeBytes 0x0a8577df5ee3430515a8cc1f6e3ac52e) [5, 6, 7, 8]] := by decide
  rw [hinputs _ (by decide), hinputs _ (by decide)]
  simp only [or_self]
  intro input hin input' hin' heq
  have hall : ∀ x ∈ [hashInput (toBeBytes 0x1ebe36576dcb573f26b99533a20aaeca) [1, 2, 3, 4],
      hashInput (toBeBytes 0x0a8577df5ee3430515a8cc1f6e3ac52e) [5, 6, 7, 8]],
      ∀ y ∈ [hashInput (toBeBytes 0x1ebe36576dcb573f26b99533a20aaeca) [1, 2, 3, 4],
        hashInput (toBeBytes 0x0a8577df5ee3430515a8cc1f6e3ac52e) [5, 6, 7, 8]],
      capturedDigests x = capturedDigests y → x = y := by decide
  exact hall input hin input' hin' heq

end VllmBlockHasher

end Pegainfer.KvOffload
