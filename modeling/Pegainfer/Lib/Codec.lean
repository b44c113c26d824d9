/-
Byte writers and the readers that undo them.

A writer appends bytes to what is out, or refuses; a reader takes a value off the bytes that are in, or refuses.
- `Undoes`: whatever the writer accepts, the reader takes back, and leaves what follows.
- `Undoes.bind`, `undoes_many`: undone parts make an undone whole; a list written back to back is read back to back.
- `Refuses`: the reader takes nothing back of what the writer accepts. `Refuses.after`: one such part spoils the whole.
- `undoes_many_iff`: a list comes back exactly when no part of it is refused.
- `littleEndian`, `ofLittleEndian`, and both with the highest byte first: fixed-width numbers.
- `Frugal`: the reader takes a value from no shorter bytes than the writer's, and from no others as short.
-/
import Mathlib.Tactic

namespace Pegainfer.Lib

abbrev Writer := StateT (List UInt8) (Except String) Unit

abbrev Reader := StateT (List UInt8) (Except String)

variable {α β ι : Type}

/-! ## Undone writers -/

/-- what the writer accepts, the reader takes back: those bytes and no others, whatever follows them -/
def Undoes (read : Reader α) (write : Writer) (value : α) : Prop :=
  ∀ out out', write out = .ok ((), out') →
    ∃ bytes, out' = out ++ bytes ∧ ∀ rest, read (bytes ++ rest) = .ok (value, rest)

/-- what the writer accepts, the reader refuses -/
def Refuses (read : Reader α) (write : Writer) : Prop :=
  ∀ out out', write out = .ok ((), out') →
    ∃ bytes, out' = out ++ bytes ∧ ∀ rest, ∃ e, read (bytes ++ rest) = .error e

/-- a writer changes nothing that is out -/
def Appends (write : Writer) : Prop := ∀ out out', write out = .ok ((), out') → ∃ bytes, out' = out ++ bytes

theorem Undoes.appends {read : Reader α} {write : Writer} {a : α} (h : Undoes read write a) : Appends write := by
  intro out out' hw
  obtain ⟨bytes, rfl, -⟩ := h out out' hw
  exact ⟨bytes, rfl⟩

theorem Refuses.appends {read : Reader α} {write : Writer} (h : Refuses read write) : Appends write := by
  intro out out' hw
  obtain ⟨bytes, rfl, -⟩ := h out out' hw
  exact ⟨bytes, rfl⟩

/-- a sequence of two succeeds when both do -/
theorem bind_ok {σ : Type} {x : StateT σ (Except String) α} {f : α → StateT σ (Except String) β} {s : σ} {r : β × σ} :
    (x >>= f) s = .ok r ↔ ∃ a s', x s = .ok (a, s') ∧ f a s' = .ok r := by
  cases hx : x s with
  | error e => simp [bind, StateT.bind, hx, Except.bind]
  | ok r' => simp [bind, StateT.bind, hx, Except.bind, Prod.ext_iff, and_assoc]

theorem bind_error {x : Reader α} {f : α → Reader β} {s s' : List UInt8} {a : α} {e : String} (hx : x s = .ok (a, s'))
    (hf : f a s' = .error e) : (x >>= f) s = .error e := by
  simp [bind, StateT.bind, hx, Except.bind, hf]

theorem bind_error_left {x : Reader α} {f : α → Reader β} {s : List UInt8} {e : String} (hx : x s = .error e) :
    (x >>= f) s = .error e := by
  simp [bind, StateT.bind, hx, Except.bind]

theorem undoes_pure (value : α) : Undoes (pure value) (pure ()) value := by
  intro out out' h
  obtain rfl := (Prod.mk.inj (Except.ok.inj h)).2
  exact ⟨[], (List.append_nil _).symm, fun rest => rfl⟩

/-- part by part -/
theorem Undoes.bind {read : Reader α} {next : α → Reader β} {write write' : Writer} {a : α} {b : β}
    (h : Undoes read write a) (h' : Undoes (next a) write' b) : Undoes (read >>= next) (write >>= fun _ => write') b := by
  intro out out' hw
  obtain ⟨⟨⟩, mid, hw₁, hw₂⟩ := bind_ok.1 hw
  obtain ⟨bytes, rfl, hr⟩ := h out mid hw₁
  obtain ⟨bytes', rfl, hr'⟩ := h' _ out' hw₂
  refine ⟨bytes ++ bytes', by rw [List.append_assoc], fun rest => bind_ok.2 ⟨a, bytes' ++ rest, ?_, hr' rest⟩⟩
  rw [List.append_assoc]
  exact hr _

theorem Appends.bind {write write' : Writer} (h : Appends write) (h' : Appends write') :
    Appends (write >>= fun _ => write') := by
  intro out out' hw
  obtain ⟨⟨⟩, mid, hw₁, hw₂⟩ := bind_ok.1 hw
  obtain ⟨bytes, rfl⟩ := h out mid hw₁
  obtain ⟨bytes', rfl⟩ := h' _ out' hw₂
  exact ⟨bytes ++ bytes', by rw [List.append_assoc]⟩

/-- the reader computes on what it took -/
theorem Undoes.map {read : Reader α} {write : Writer} {a : α} (f : α → β) (h : Undoes read write a) :
    Undoes (read >>= fun a => pure (f a)) write (f a) := by
  intro out out' hw
  obtain ⟨bytes, rfl, hr⟩ := h out out' hw
  exact ⟨bytes, rfl, fun rest => bind_ok.2 ⟨a, rest, hr rest, rfl⟩⟩

/-- a reader that refuses the front refuses -/
theorem Refuses.bind {read : Reader α} {write : Writer} (next : α → Reader β) (h : Refuses read write) :
    Refuses (read >>= next) write := by
  intro out out' hw
  obtain ⟨bytes, rfl, hr⟩ := h out out' hw
  refine ⟨bytes, rfl, fun rest => ?_⟩
  obtain ⟨e, he⟩ := hr rest
  exact ⟨e, bind_error_left he⟩

/-- what was taken back is refused -/
theorem Undoes.refuses {read : Reader α} {next : α → Reader β} {write : Writer} {a : α} (h : Undoes read write a)
    (hn : ∀ bytes, ∃ e, next a bytes = .error e) : Refuses (read >>= next) write := by
  intro out out' hw
  obtain ⟨bytes, rfl, hr⟩ := h out out' hw
  refine ⟨bytes, rfl, fun rest => ?_⟩
  obtain ⟨e, he⟩ := hn rest
  exact ⟨e, bind_error (hr rest) he⟩

/-- nothing is taken back of what is appended -/
theorem Appends.refuses {write : Writer} (h : Appends write) (e : String) :
    Refuses (throw e : Reader α) write := by
  intro out out' hw
  obtain ⟨bytes, rfl⟩ := h out out' hw
  exact ⟨bytes, rfl, fun rest => ⟨e, rfl⟩⟩

/-- refused after parts that are taken back -/
theorem Refuses.after {read : Reader α} {next : α → Reader β} {write write' : Writer} {a : α} (h : Undoes read write a)
    (h' : Refuses (next a) write') : Refuses (read >>= next) (write >>= fun _ => write') := by
  intro out out' hw
  obtain ⟨⟨⟩, mid, hw₁, hw₂⟩ := bind_ok.1 hw
  obtain ⟨bytes, rfl, hr⟩ := h out mid hw₁
  obtain ⟨bytes', rfl, hr'⟩ := h' _ out' hw₂
  refine ⟨bytes ++ bytes', by rw [List.append_assoc], fun rest => ?_⟩
  obtain ⟨e, he⟩ := hr' rest
  exact ⟨e, bind_error (by rw [List.append_assoc]; exact hr _) he⟩

/-! ## Lists -/

/-- `n` values, back to back -/
def readMany (read : Reader α) : ℕ → Reader (List α)
  | 0 => pure []
  | n + 1 => do
    let a ← read
    let as ← readMany read n
    pure (a :: as)

/-- the values one after another -/
def writeMany (write : ι → Writer) : List ι → Writer
  | [] => pure ()
  | i :: is => do
    write i
    writeMany write is

theorem undoes_many {read : Reader ι} {write : ι → Writer} {is : List ι} (h : ∀ i ∈ is, Undoes read (write i) i) :
    Undoes (readMany read is.length) (writeMany write is) is := by
  induction is with
  | nil => exact undoes_pure []
  | cons i is ih =>
    have htail := ih fun j hj => h j (List.mem_cons_of_mem _ hj)
    exact (h i List.mem_cons_self).bind (htail.map (i :: ·))

theorem appends_many {write : ι → Writer} {is : List ι} (h : ∀ i ∈ is, Appends (write i)) :
    Appends (writeMany write is) := by
  induction is with
  | nil => exact (undoes_pure ()).appends
  | cons i is ih => exact (h i List.mem_cons_self).bind (ih fun j hj => h j (List.mem_cons_of_mem _ hj))

/-- **Back to back.** A list of values, each undone or refused, comes back exactly when none is refused. -/
theorem undoes_many_iff {read : Reader ι} {write : ι → Writer} {p : ι → Prop} {is : List ι}
    (hok : ∀ i ∈ is, p i → Undoes read (write i) i) (hno : ∀ i ∈ is, ¬ p i → Refuses read (write i))
    {out out' : List UInt8} (hw : writeMany write is out = .ok ((), out')) :
    (∃ bytes, out' = out ++ bytes ∧ ∀ rest, readMany read is.length (bytes ++ rest) = .ok (is, rest)) ↔
      ∀ i ∈ is, p i := by
  constructor
  · rintro ⟨bytes, rfl, hread⟩
    induction is generalizing out bytes with
    | nil => exact fun i hi => absurd hi List.not_mem_nil
    | cons i is ih =>
      have hok' := fun j hj => hok j (List.mem_cons_of_mem i hj)
      have hno' := fun j hj => hno j (List.mem_cons_of_mem i hj)
      obtain ⟨⟨⟩, mid, hw₁, hw₂⟩ := bind_ok.1 hw
      have happends : Appends (writeMany write is) := appends_many fun j hj => by
        by_cases hp : p j
        · exact (hok' j hj hp).appends
        · exact (hno' j hj hp).appends
      obtain ⟨b₂, heq⟩ := happends mid _ hw₂
      by_cases hp : p i
      · obtain ⟨b₁, rfl, htaken⟩ := hok i List.mem_cons_self hp out mid hw₁
        obtain rfl : bytes = b₁ ++ b₂ := by rwa [List.append_assoc, List.append_cancel_left_eq] at heq
        rw [heq] at hw₂
        refine List.forall_mem_cons.2 ⟨hp, ih hok' hno' b₂ (fun rest => ?_) hw₂⟩
        -- the first value is taken off, the others follow
        obtain ⟨j, s, hfirst, hothers⟩ := bind_ok.1 (hread rest)
        rw [List.append_assoc, htaken] at hfirst
        obtain ⟨rfl, rfl⟩ := Prod.mk.inj (Except.ok.inj hfirst)
        obtain ⟨js, s', hmany, hlast⟩ := bind_ok.1 hothers
        obtain ⟨hcons, rfl⟩ := Prod.mk.inj (Except.ok.inj hlast)
        rw [(List.cons.inj hcons).2] at hmany
        exact hmany
      · obtain ⟨b₁, rfl, hrefused⟩ := hno i List.mem_cons_self hp out mid hw₁
        obtain rfl : bytes = b₁ ++ b₂ := by rwa [List.append_assoc, List.append_cancel_left_eq] at heq
        obtain ⟨e, he⟩ := hrefused (b₂ ++ [])
        have hfail : readMany read (i :: is).length (b₁ ++ b₂ ++ []) = .error e :=
          bind_error_left (by rw [List.append_assoc]; exact he)
        rw [hread] at hfail
        cases hfail
  · intro hall
    exact undoes_many (fun i hi => hok i hi (hall i hi)) out out' hw

/-! ## Numbers -/

/-- the low `n` bytes of a number, lowest first -/
def littleEndian : ℕ → ℕ → List UInt8
  | 0, _ => []
  | n + 1, v => UInt8.ofNat v :: littleEndian n (v / 256)

def ofLittleEndian (bytes : List UInt8) : ℕ := bytes.foldr (fun byte v => byte.toNat + 256 * v) 0

@[simp] theorem length_littleEndian (n v : ℕ) : (littleEndian n v).length = n := by
  induction n generalizing v with
  | zero => rfl
  | succ n ih => simp [littleEndian, ih]

theorem ofLittleEndian_littleEndian (n : ℕ) : ∀ v < 256 ^ n, ofLittleEndian (littleEndian n v) = v := by
  induction n with
  | zero =>
    intro v hv
    simp only [pow_zero, Nat.lt_one_iff] at hv
    rw [hv]
    rfl
  | succ n ih =>
    intro v hv
    have hdiv : v / 256 < 256 ^ n := by
      rw [Nat.div_lt_iff_lt_mul (by decide), ← pow_succ]
      exact hv
    have htail := ih (v / 256) hdiv
    simp only [ofLittleEndian, littleEndian, List.foldr_cons] at htail ⊢
    rw [htail, UInt8.toNat_ofNat']
    exact Nat.mod_add_div v 256

theorem ofLittleEndian_lt (bytes : List UInt8) : ofLittleEndian bytes < 256 ^ bytes.length := by
  induction bytes with
  | nil => simp [ofLittleEndian]
  | cons byte bytes ih =>
    have hbyte : byte.toNat < 256 := byte.toNat_lt
    simp only [ofLittleEndian, List.foldr_cons, List.length_cons, pow_succ] at ih ⊢
    omega

theorem littleEndian_ofLittleEndian (bytes : List UInt8) :
    littleEndian bytes.length (ofLittleEndian bytes) = bytes := by
  induction bytes with
  | nil => rfl
  | cons byte bytes ih =>
    have hbyte : byte.toNat < 256 := byte.toNat_lt
    simp only [ofLittleEndian, List.foldr_cons, List.length_cons, littleEndian] at ih ⊢
    congr 1
    · apply UInt8.toNat_inj.1
      rw [UInt8.toNat_ofNat']
      omega
    · rwa [show (byte.toNat + 256 * bytes.foldr (fun byte v => byte.toNat + 256 * v) 0) / 256 =
        bytes.foldr (fun byte v => byte.toNat + 256 * v) 0 by omega]

/-- the low `n` bytes of a number, highest first -/
def bigEndian (n v : ℕ) : List UInt8 := (littleEndian n v).reverse

def ofBigEndian (bytes : List UInt8) : ℕ := ofLittleEndian bytes.reverse

@[simp] theorem length_bigEndian (n v : ℕ) : (bigEndian n v).length = n := by simp [bigEndian]

theorem ofBigEndian_bigEndian {n v : ℕ} (hv : v < 256 ^ n) : ofBigEndian (bigEndian n v) = v := by
  rw [ofBigEndian, bigEndian, List.reverse_reverse]
  exact ofLittleEndian_littleEndian n v hv

theorem ofBigEndian_lt (bytes : List UInt8) : ofBigEndian bytes < 256 ^ bytes.length := by
  have h := ofLittleEndian_lt bytes.reverse
  rwa [List.length_reverse] at h

theorem bigEndian_ofBigEndian (bytes : List UInt8) : bigEndian bytes.length (ofBigEndian bytes) = bytes := by
  have h := littleEndian_ofLittleEndian bytes.reverse
  rw [List.length_reverse] at h
  rw [bigEndian, ofBigEndian, h, List.reverse_reverse]

/-- the bytes, unchanged -/
def writeAll (bytes : List UInt8) : Writer := fun out => .ok ((), out ++ bytes)

/-- `n` bytes, or nothing -/
def readExact (n : ℕ) : Reader (List UInt8) := fun bytes =>
  if bytes.length < n then .error "failed to fill whole buffer" else .ok (bytes.take n, bytes.drop n)

theorem undoes_bytes (bytes : List UInt8) : Undoes (readExact bytes.length) (writeAll bytes) bytes := by
  intro out out' h
  obtain rfl := (Prod.mk.inj (Except.ok.inj h)).2
  refine ⟨bytes, rfl, fun rest => ?_⟩
  simp [readExact]

theorem undoes_writeAll_iff {read : Reader α} {bytes : List UInt8} {a : α} :
    Undoes read (writeAll bytes) a ↔ ∀ rest, read (bytes ++ rest) = .ok (a, rest) := by
  constructor
  · intro h
    obtain ⟨written, heq, hread⟩ := h [] bytes rfl
    rw [List.nil_append] at heq
    rwa [heq]
  · intro hread out out' h
    obtain rfl := (Prod.mk.inj (Except.ok.inj h)).2
    exact ⟨bytes, rfl, hread⟩

theorem writeAll_append (bytes bytes' : List UInt8) :
    writeAll (bytes ++ bytes') = (writeAll bytes >>= fun _ => writeAll bytes') := by
  funext out
  simp [writeAll, bind, StateT.bind, Except.bind]

theorem writeMany_writeAll (write : ι → List UInt8) (is : List ι) :
    writeMany (fun i => writeAll (write i)) is = writeAll (is.flatMap write) := by
  induction is with
  | nil =>
    funext out
    rw [writeMany, List.flatMap_nil, writeAll, List.append_nil]
    rfl
  | cons i is ih => rw [List.flatMap_cons, writeAll_append, writeMany, ih]

/-- a number that fits its width -/
theorem undoes_number {n v : ℕ} (hv : v < 256 ^ n) :
    Undoes (do let bytes ← readExact n; pure (ofLittleEndian bytes)) (writeAll (littleEndian n v)) v := by
  have h := (undoes_bytes (littleEndian n v)).map ofLittleEndian
  rwa [length_littleEndian, ofLittleEndian_littleEndian n v hv] at h

/-! ## Shortest writers -/

/-- `used` is `want` itself or longer -/
def NoShorter (want used : List UInt8) : Prop := used = want ∨ want.length < used.length

theorem NoShorter.append {want want' used used' : List UInt8} (h : NoShorter want used) (h' : NoShorter want' used') :
    NoShorter (want ++ want') (used ++ used') := by
  unfold NoShorter at *
  rw [List.length_append, List.length_append]
  rcases h with rfl | hlt
  · rcases h' with rfl | hlt'
    · exact .inl rfl
    · exact .inr (by omega)
  · rcases h' with rfl | hlt'
    · exact .inr (by omega)
    · exact .inr (by omega)

/-- whatever bytes the reader takes a value from, the writer's are no longer, and as long only when they are the same -/
def Frugal (read : Reader α) (write : α → List UInt8) : Prop :=
  ∀ bytes a rest, read bytes = .ok (a, rest) → ∃ used, bytes = used ++ rest ∧ NoShorter (write a) used

theorem readExact_ok {n : ℕ} {bytes taken rest : List UInt8} (h : readExact n bytes = .ok (taken, rest)) :
    bytes = taken ++ rest ∧ taken.length = n := by
  unfold readExact at h
  split_ifs at h with hshort
  obtain ⟨rfl, rfl⟩ := Prod.mk.inj (Except.ok.inj h)
  exact ⟨(List.take_append_drop n bytes).symm, by rw [List.length_take]; omega⟩

theorem frugal_readExact (n : ℕ) : Frugal (readExact n) id := by
  intro bytes taken rest h
  exact ⟨taken, (readExact_ok h).1, .inl rfl⟩

/-- values back to back are read from no shorter bytes than they are written in -/
theorem Frugal.many {read : Reader α} {write : α → List UInt8} (h : Frugal read write) (n : ℕ) :
    ∀ bytes as rest, readMany read n bytes = .ok (as, rest) →
      as.length = n ∧ ∃ used, bytes = used ++ rest ∧ NoShorter (as.flatMap write) used := by
  induction n with
  | zero =>
    intro bytes as rest hread
    obtain ⟨rfl, rfl⟩ := Prod.mk.inj (Except.ok.inj hread)
    exact ⟨rfl, [], rfl, .inl rfl⟩
  | succ n ih =>
    intro bytes as rest hread
    obtain ⟨a, mid, hfirst, hothers⟩ := bind_ok.1 hread
    obtain ⟨others, rest', hmany, hlast⟩ := bind_ok.1 hothers
    obtain ⟨rfl, rfl⟩ := Prod.mk.inj (Except.ok.inj hlast)
    obtain ⟨used, rfl, hused⟩ := h bytes a mid hfirst
    obtain ⟨hlen, used', rfl, hused'⟩ := ih mid others rest' hmany
    refine ⟨by rw [List.length_cons, hlen], used ++ used', by rw [List.append_assoc], ?_⟩
    rw [List.flatMap_cons]
    exact hused.append hused'

end Pegainfer.Lib
