/-
The generator a scheduler round calls: what it checks of a batch, and what a batch does to each row's cache.

The forward itself is a parameter: a row's next token and the entries it appends depend on that row's token, position
and cache (`Generator`). A host cache keeps one entry per token and layer; with a device pool a cache is a slot of it,
taken from the pool's free stack after the prefill.
- `CacheAt`: a cache that has seen `position` tokens.
- `decodeNextTokensBatch_rowwise`, `decodeNextToken_rowwise`: on such caches no check fails, and each row is stepped by
  itself.
-/
import Mathlib.Tactic

namespace Pegainfer.Dsv2Lite

variable {K : Type}

/-! ## Caches -/

/-- what loading validates of the model's configuration -/
structure Config where
  numHiddenLayers : ℕ
  eosTokenIds : List ℕ
  supportedPlainRopeContext : ℕ
  validated : numHiddenLayers = 27

/-- a slot of the device pool, with its share of the pool's buffers layer by layer -/
structure DeviceKvSlot (K : Type) where
  index : ℕ
  len : ℕ
  data : List (List K)

structure DecodeCache (K : Type) where
  layers : List (List K)
  device : Option (DeviceKvSlot K)

structure DeviceKvPool where
  numSlots : ℕ
  maxSeqLen : ℕ
  /-- the free slots, the next one out first -/
  free : List ℕ
deriving DecidableEq, Repr

/-- what attention reads of a cache -/
structure RowKv (K : Type) where
  onDevice : Bool
  layers : List (List K)

def DEFAULT_MAX_ACTIVE_REQUESTS : ℕ := 8

def DEVICE_KV_SLOTS : ℕ := DEFAULT_MAX_ACTIVE_REQUESTS

/-- the model: a row's output is a function of its own token, position and cache -/
structure Generator (K : Type) where
  config : Config
  /-- whether the device pool was allocated -/
  deviceDecode : Bool
  /-- a host entry as the device keeps it -/
  toDevice : K → K
  /-- the first token, and the entry of each layer and position -/
  prefillRow : List ℕ → Except String (ℕ × (ℕ → ℕ → K))
  /-- the next token, and the entry each layer appends -/
  decodeRow : ℕ → ℕ → RowKv K → ℕ × (ℕ → K)

namespace DecodeCache

def new (config : Config) : DecodeCache K := ⟨List.replicate config.numHiddenLayers [], none⟩

def kv (cache : DecodeCache K) : RowKv K :=
  match cache.device with
  | some slot => ⟨true, slot.data⟩
  | none => ⟨false, cache.layers⟩

def position (config : Config) (cache : DecodeCache K) : Except String ℕ :=
  match cache.device with
  | some slot => .ok slot.len
  | none =>
    if cache.layers.length ≠ config.numHiddenLayers then
      .error s!"decode cache layer count mismatch: cache={cache.layers.length}, expected={config.numHiddenLayers}"
    else
      match cache.layers with
      | [] => .ok 0
      | first :: rest =>
        match rest.findIdx? fun layer => layer.length ≠ first.length with
        | none => .ok first.length
        | some i => .error s!"decode cache layer {i + 1} position mismatch: cache_len={(rest.getD i []).length}, expected={first.length}"

/-- every layer takes its entries -/
def extend (layers : List (List K)) (entries : ℕ → List K) : List (List K) :=
  layers.mapIdx fun l layer => layer ++ entries l

/-- one token's entries -/
def append (cache : DecodeCache K) (entries : ℕ → K) : DecodeCache K :=
  match cache.device with
  | some slot =>
    { cache with device := some { slot with len := slot.len + 1, data := extend slot.data fun l => [entries l] } }
  | none => { cache with layers := extend cache.layers fun l => [entries l] }

/-- the slot a cache gives back when it is dropped -/
def slots (cache : DecodeCache K) : List ℕ := (cache.device.map DeviceKvSlot.index).toList

/-- the cache but for which slot it is in -/
def anon (cache : DecodeCache K) : DecodeCache K :=
  { cache with device := cache.device.map fun slot => { slot with index := 0 } }

end DecodeCache

/-! ## The pool -/

namespace DeviceKvPool

def new (numSlots maxSeqLen : ℕ) : DeviceKvPool := ⟨numSlots, maxSeqLen, List.range numSlots⟩

/-- slots of dropped caches go back on the stack -/
def release (pool : DeviceKvPool) (slots : List ℕ) : DeviceKvPool := { pool with free := slots ++ pool.free }

end DeviceKvPool

namespace Generator

variable (g : Generator K)

def supportedContext : ℕ := g.config.supportedPlainRopeContext

/-- the pool as loaded -/
def loadPool : Option DeviceKvPool :=
  if g.deviceDecode then some (DeviceKvPool.new DEVICE_KV_SLOTS g.supportedContext) else none

/-- the cache moves into a slot of the pool -/
def attachDeviceKv (pool : Option DeviceKvPool) (cache : DecodeCache K) :
    Except String (DecodeCache K) × Option DeviceKvPool :=
  match pool with
  | none => (.ok cache, none)
  | some pool =>
    match pool.free with
    | [] => (.error s!"DeepSeek-V2-Lite device KV pool exhausted: all {pool.numSlots} slots are owned", some pool)
    | index :: free =>
      match cache.position g.config with
      | .error e => (.error e, some pool)
      | .ok len =>
        if pool.maxSeqLen < len then
          (.error s!"prefill length {len} exceeds device KV slot capacity {pool.maxSeqLen}", some pool)
        else
          (.ok ⟨[], some ⟨index, len, cache.layers.map (List.map g.toDevice)⟩⟩, some { pool with free := free })

/-! ## Steps -/

def prefillNextToken (promptTokens : List ℕ) (cache : DecodeCache K) : Except String (ℕ × DecodeCache K) :=
  if cache.layers.length ≠ g.config.numHiddenLayers then .error "decode cache layer count mismatch"
  else
    match g.prefillRow promptTokens with
    | .error e => .error e
    | .ok (token, entries) =>
      .ok (token, { cache with
        layers := DecodeCache.extend cache.layers fun l => (List.range promptTokens.length).map (entries l) })

/-- one row's step -/
def rowStep (token position : ℕ) (cache : DecodeCache K) : ℕ × DecodeCache K :=
  let out := g.decodeRow token position cache.kv
  (out.1, cache.append out.2)

/-- what the device pool refuses of a batch -/
def uploadRefusal (pool : Option DeviceKvPool) (slots : List (DeviceKvSlot K)) : Option String :=
  match pool with
  | none => some "DeepSeek-V2-Lite device decode requires the device KV pool"
  | some pool =>
    if slots.isEmpty ∨ pool.numSlots < slots.length then
      some s!"device KV decode batch {slots.length} must be in 1..={pool.numSlots}"
    else
      slots.findSome? fun slot =>
        if slot.len < pool.maxSeqLen then none
        else some s!"device KV slot {slot.index} is full: {slot.len} tokens of capacity {pool.maxSeqLen}"

/-- what the batched forward refuses -/
def batchRefusal (pool : Option DeviceKvPool) (seqLen : ℕ) (positions : List ℕ) (caches : List (DecodeCache K)) :
    Option String :=
  let slots := caches.filterMap DecodeCache.device
  if caches.length ≠ seqLen ∨ positions.length ≠ seqLen then
    some s!"batched decode caches {caches.length} and positions {positions.length} must match hidden seq_len {seqLen}"
  else if slots.length = caches.length then
    match (slots.zip positions).findIdx? fun row => row.1.len ≠ row.2 with
    | some row => some s!"batched decode row {row} device cache position mismatch: cache_len={((slots.map DeviceKvSlot.len).getD row 0)}, position={positions.getD row 0}"
    | none => uploadRefusal pool slots
  else if slots.length ≠ 0 then
    some s!"batched decode mixes {slots.length} device-cache rows with {caches.length - slots.length} host-cache rows"
  else if positions.any fun position => position ≠ positions.headD 0 then
    some s!"host-cache batched decode requires one shared position, got {positions}"
  else if caches.any fun cache => cache.layers.length ≠ g.config.numHiddenLayers then
    some "batched decode cache layer count mismatch"
  else none

/-- all rows in one step; a refusal is the whole batch's -/
def decodeNextTokensBatch (pool : Option DeviceKvPool) (tokens positions : List ℕ) (caches : List (DecodeCache K)) :
    Except String (List ℕ × List (DecodeCache K)) :=
  if tokens.isEmpty then .error "batched decode tokens must not be empty"
  else if tokens.length ≠ caches.length then
    .error s!"batched decode token/cache mismatch: tokens={tokens.length}, caches={caches.length}"
  else
    match g.batchRefusal pool tokens.length positions caches with
    | some e => .error e
    | none =>
      let rows := (tokens.zip (positions.zip caches)).map fun row => g.rowStep row.1 row.2.1 row.2.2
      .ok (rows.map Prod.fst, rows.map Prod.snd)

def decodeNextToken (pool : Option DeviceKvPool) (token position : ℕ) (cache : DecodeCache K) :
    Except String (ℕ × DecodeCache K) :=
  if cache.device.isSome then
    match g.decodeNextTokensBatch pool [token] [position] [cache] with
    | .error e => .error e
    | .ok ([next], [cache]) => .ok (next, cache)
    | .ok (tokens, _) => .error s!"device decode returned {tokens.length} tokens for one row"
  else if cache.layers.length ≠ g.config.numHiddenLayers then .error "decode cache layer count mismatch"
  else .ok (g.rowStep token position cache)

end Generator

/-! ## Caches in step -/

/-- a cache that has seen `position` tokens, where the generator keeps its caches -/
structure CacheAt (g : Generator K) (position : ℕ) (cache : DecodeCache K) : Prop where
  host : g.deviceDecode = false → cache.device = none ∧ cache.layers.length = g.config.numHiddenLayers ∧
    ∀ layer ∈ cache.layers, layer.length = position
  device : g.deviceDecode = true → ∃ slot, cache.device = some slot ∧ slot.len = position

/-- the generator's pool, its slots shared out between the stack and `held` -/
structure PoolOk (g : Generator K) (pool : Option DeviceKvPool) (held : List ℕ) : Prop where
  host : g.deviceDecode = false → pool = none
  device : g.deviceDecode = true → ∃ free, pool = some ⟨DEVICE_KV_SLOTS, g.supportedContext, free⟩ ∧
    (free ++ held).Perm (List.range DEVICE_KV_SLOTS)

variable {g : Generator K} {position token : ℕ} {cache : DecodeCache K} {pool : Option DeviceKvPool} {held : List ℕ}

theorem DecodeCache.extend_length (layers : List (List K)) (entries : ℕ → List K) :
    (DecodeCache.extend layers entries).length = layers.length := List.length_mapIdx

theorem DecodeCache.extend_layer {layers : List (List K)} {entries : ℕ → List K} {n k : ℕ}
    (h : ∀ layer ∈ layers, layer.length = n) (hk : ∀ l, (entries l).length = k) :
    ∀ layer ∈ DecodeCache.extend layers entries, layer.length = n + k := by
  intro layer hlayer
  obtain ⟨l, hl, rfl⟩ := List.mem_mapIdx.1 hlayer
  rw [List.length_append, h _ (List.getElem_mem hl), hk]

/-- a host cache whose layers have seen `n` tokens -/
theorem DecodeCache.position_host {n : ℕ} (hnone : cache.device = none)
    (hcount : cache.layers.length = g.config.numHiddenLayers) (hlayers : ∀ layer ∈ cache.layers, layer.length = n) :
    cache.position g.config = .ok n := by
  unfold DecodeCache.position
  rw [hnone]
  dsimp only
  rw [if_neg (not_not_intro hcount)]
  cases hl : cache.layers with
  | nil =>
    rw [hl, g.config.validated] at hcount
    cases hcount
  | cons first rest =>
    rw [hl] at hlayers
    have hfirst := hlayers first List.mem_cons_self
    have hnone : (rest.findIdx? fun layer => layer.length ≠ first.length) = none := by
      rw [List.findIdx?_eq_none_iff]
      intro layer hmem
      rw [hlayers layer (List.mem_cons_of_mem _ hmem), hfirst]
      simp
    dsimp only
    rw [hnone, hfirst]

namespace CacheAt

/-- **A cache in step passes its position check.** -/
theorem position_ok (h : CacheAt g position cache) : cache.position g.config = .ok position := by
  cases hd : g.deviceDecode with
  | true =>
    obtain ⟨slot, hslot, hlen⟩ := h.device hd
    unfold DecodeCache.position
    rw [hslot, ← hlen]
  | false =>
    obtain ⟨hnone, hcount, hlayers⟩ := h.host hd
    exact DecodeCache.position_host hnone hcount hlayers

/-- a step leaves the cache one token on -/
theorem append (h : CacheAt g position cache) (entries : ℕ → K) : CacheAt g (position + 1) (cache.append entries) := by
  unfold DecodeCache.append
  refine ⟨fun hd => ?_, fun hd => ?_⟩
  · obtain ⟨hnone, hcount, hlayers⟩ := h.host hd
    rw [hnone]
    refine ⟨rfl, ?_, DecodeCache.extend_layer hlayers fun _ => rfl⟩
    rw [DecodeCache.extend_length, hcount]
  · obtain ⟨slot, hslot, hlen⟩ := h.device hd
    rw [hslot]
    exact ⟨_, rfl, congrArg (· + 1) hlen⟩

end CacheAt

/-- a prefill leaves every layer of a new cache with the prompt's entries -/
theorem DecodeCache.prefilled (config : Config) (n : ℕ) (entries : ℕ → ℕ → K) :
    (DecodeCache.extend (DecodeCache.new (K := K) config).layers fun l => (List.range n).map (entries l)).length =
        config.numHiddenLayers ∧
      ∀ layer ∈ DecodeCache.extend (DecodeCache.new (K := K) config).layers fun l => (List.range n).map (entries l),
        layer.length = n := by
  have hempty : ∀ layer ∈ (DecodeCache.new (K := K) config).layers, layer.length = 0 := by
    intro layer hlayer
    rw [List.eq_of_mem_replicate hlayer]
    rfl
  refine ⟨?_, ?_⟩
  · rw [DecodeCache.extend_length, DecodeCache.new, List.length_replicate]
  · intro layer hlayer
    have hlen := DecodeCache.extend_layer hempty (fun l => by rw [List.length_map, List.length_range]) layer hlayer
    exact hlen.trans (Nat.zero_add n)

/-! ## A batch is its rows -/

/-- rows a batch can take together: in step, within the context, and of one position on the host -/
structure Batchable (g : Generator K) (positions : List ℕ) (caches : List (DecodeCache K)) : Prop where
  rows : List.Forall₂ (CacheAt g) positions caches
  nonempty : positions ≠ []
  short : positions.length ≤ DEVICE_KV_SLOTS
  context : ∀ p ∈ positions, p < g.supportedContext
  shared : g.deviceDecode = false → ∀ p ∈ positions, p = positions.headD 0

theorem Batchable.no_refusal {positions : List ℕ} {caches : List (DecodeCache K)} (h : Batchable g positions caches)
    (hpool : PoolOk g pool held) : g.batchRefusal pool positions.length positions caches = none := by
  have hlen := h.rows.length_eq
  unfold Generator.batchRefusal
  dsimp only
  rw [if_neg (by rw [hlen]; simp)]
  cases hd : g.deviceDecode with
  | true =>
    -- every cache is a slot, and its length is the row's position
    obtain ⟨free, hp, -⟩ := hpool.device hd
    have hslots : ∀ {ps : List ℕ} {cs : List (DecodeCache K)}, List.Forall₂ (CacheAt g) ps cs →
        (cs.filterMap DecodeCache.device).map DeviceKvSlot.len = ps := by
      intro ps cs hrows
      induction hrows with
      | nil => rfl
      | cons hrow _ ih =>
        obtain ⟨slot, hslot, hl⟩ := hrow.device hd
        rw [List.filterMap_cons_some hslot, List.map_cons, ih, hl]
    have hlens := hslots h.rows
    have hcount : (caches.filterMap DecodeCache.device).length = caches.length := by
      rw [← hlen, ← hlens, List.length_map]
    rw [if_pos hcount]
    have hmatch : (((caches.filterMap DecodeCache.device).zip positions).findIdx? fun row => row.1.len ≠ row.2) =
        none := by
      rw [List.findIdx?_eq_none_iff]
      rintro ⟨slot, p⟩ hrow
      obtain ⟨i, hi, heq⟩ := List.getElem_of_mem hrow
      rw [List.getElem_zip, Prod.mk.injEq] at heq
      have hp : ((caches.filterMap DecodeCache.device).map DeviceKvSlot.len)[i]? = positions[i]? := by rw [hlens]
      rw [List.length_zip, lt_min_iff] at hi
      rw [List.getElem?_map, List.getElem?_eq_getElem hi.1, List.getElem?_eq_getElem hi.2, heq.1, heq.2] at hp
      simpa using hp
    simp only [hmatch]
    unfold Generator.uploadRefusal
    rw [hp]
    dsimp only
    rw [if_neg]
    · rw [List.findSome?_eq_none_iff]
      intro slot hslot
      have hmem : slot.len ∈ positions := hlens ▸ List.mem_map_of_mem hslot
      rw [if_pos (h.context _ hmem)]
    · rw [hcount, ← hlen, List.isEmpty_iff, ← List.length_eq_zero_iff, hcount, ← hlen, List.length_eq_zero_iff]
      rintro (hnil | hlong)
      · exact h.nonempty hnil
      · exact absurd h.short (not_le.2 hlong)
  | false =>
    have hhost : ∀ {ps : List ℕ} {cs : List (DecodeCache K)}, List.Forall₂ (CacheAt g) ps cs →
        cs.filterMap DecodeCache.device = [] ∧
          ∀ cache ∈ cs, cache.layers.length = g.config.numHiddenLayers := by
      intro ps cs hrows
      induction hrows with
      | nil => exact ⟨rfl, nofun⟩
      | cons hrow _ ih =>
        obtain ⟨hnone, hcount, -⟩ := hrow.host hd
        refine ⟨?_, fun cache hmem => ?_⟩
        · rw [List.filterMap_cons_none hnone, ih.1]
        · rcases List.mem_cons.1 hmem with rfl | hmem
          · exact hcount
          · exact ih.2 cache hmem
    obtain ⟨hnone, hcounts⟩ := hhost h.rows
    have hne : caches.length ≠ 0 := by
      rw [← hlen]
      exact fun h0 => h.nonempty (List.length_eq_zero_iff.1 h0)
    rw [hnone, List.length_nil, if_neg hne.symm, if_neg (not_not_intro rfl), if_neg, if_neg]
    · intro hany
      obtain ⟨cache, hmem, hbad⟩ := List.any_eq_true.1 hany
      exact (of_decide_eq_true hbad) (hcounts cache hmem)
    · intro hany
      obtain ⟨p, hmem, hbad⟩ := List.any_eq_true.1 hany
      exact (of_decide_eq_true hbad) (h.shared hd p hmem)

/-- **A batch steps each row by itself.** -/
theorem decodeNextTokensBatch_rowwise {tokens positions : List ℕ} {caches : List (DecodeCache K)}
    (h : Batchable g positions caches) (htokens : tokens.length = positions.length) (hpool : PoolOk g pool held) :
    g.decodeNextTokensBatch pool tokens positions caches =
      .ok (((tokens.zip (positions.zip caches)).map fun row => g.rowStep row.1 row.2.1 row.2.2).map Prod.fst,
        ((tokens.zip (positions.zip caches)).map fun row => g.rowStep row.1 row.2.1 row.2.2).map Prod.snd) := by
  have hrefusal := h.no_refusal hpool
  unfold Generator.decodeNextTokensBatch
  rw [if_neg, if_neg, htokens, hrefusal]
  · rw [htokens, h.rows.length_eq]
    exact not_not_intro rfl
  · rw [List.isEmpty_iff, ← List.length_eq_zero_iff, htokens, List.length_eq_zero_iff]
    exact h.nonempty

theorem decodeNextToken_rowwise (h : CacheAt g position cache) (hcontext : position < g.supportedContext)
    (hpool : PoolOk g pool held) :
    g.decodeNextToken pool token position cache = .ok (g.rowStep token position cache) := by
  unfold Generator.decodeNextToken
  cases hd : g.deviceDecode with
  | true =>
    obtain ⟨slot, hslot, -⟩ := h.device hd
    have hbatch : Batchable g [position] [cache] := by
      refine ⟨List.Forall₂.cons h List.Forall₂.nil, List.cons_ne_nil _ _, ?_, fun p hp => ?_, fun hd' => ?_⟩
      · rw [List.length_singleton]
        decide
      · rw [List.mem_singleton.1 hp]
        exact hcontext
      · rw [hd] at hd'
        cases hd'
    have hone : g.decodeNextTokensBatch pool [token] [position] [cache] = _ :=
      decodeNextTokensBatch_rowwise hbatch rfl hpool
    rw [if_pos (by rw [hslot]; rfl), hone]
    rfl
  | false =>
    obtain ⟨hnone, hcount, -⟩ := h.host hd
    rw [if_neg (by rw [hnone]; simp), if_neg (not_not_intro hcount)]

/-! ## Slots do not matter -/

theorem DecodeCache.anon_kv (cache : DecodeCache K) : cache.anon.kv = cache.kv := by
  unfold DecodeCache.kv DecodeCache.anon
  cases cache.device <;> rfl

theorem rowStep_anon (token position : ℕ) (cache : DecodeCache K) :
    g.rowStep token position cache.anon =
      ((g.rowStep token position cache).1, (g.rowStep token position cache).2.anon) := by
  unfold Generator.rowStep
  rw [DecodeCache.anon_kv]
  refine Prod.ext rfl ?_
  unfold DecodeCache.append DecodeCache.anon
  cases cache.device <;> rfl

theorem rowStep_slots (token position : ℕ) (cache : DecodeCache K) :
    (g.rowStep token position cache).2.slots = cache.slots := by
  unfold Generator.rowStep DecodeCache.append DecodeCache.slots
  rcases cache.device with _ | slot
  · rfl
  · rfl

end Pegainfer.Dsv2Lite
