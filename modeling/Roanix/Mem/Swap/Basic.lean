import Mathlib.Data.List.Basic
import Roanix.Mem.Addr
import Roanix.Mem.Pool

/-! Compressed swap of `swap.rs`, over pages as 64-bit words in the machine's order. A load takes the
payload out of its slot, decodes it without the lock and puts it back, so it is two steps here with
`load` as their composition. Whether a lock is free or an allocation succeeds, and what an external
backend replies, is an argument. -/
namespace Roanix.Mem
open Lib List

structure Page where
  bytes : List UInt8
  length_eq : bytes.length = pageSize
deriving DecidableEq

instance : Inhabited Page := ⟨⟨List.replicate pageSize 0, by simp⟩⟩

/-- `as_chunks::<8>().0`: whole chunks only. -/
def asChunks : List UInt8 → List (List UInt8)
  | a :: b :: c :: d :: e :: f :: g :: h :: rest => [a, b, c, d, e, f, g, h] :: asChunks rest
  | _ => []

/-- `u64::from_ne_bytes`, least significant byte first. -/
def fromNeBytes (bytes : List UInt8) : UInt64 :=
  UInt64.ofNat (bytes.foldr (fun b n => b.toNat + 256 * n) 0)

def toNeBytes (w : UInt64) : List UInt8 :=
  (List.range 8).map fun i => UInt8.ofNat (w.toNat / 256 ^ i)

def Page.fill (p : Page) : UInt64 := fromNeBytes (p.bytes.take 8)

/-- Every word of the page is its first one. -/
def Page.IsFill (p : Page) : Prop := ∀ word ∈ asChunks p.bytes, fromNeBytes word = p.fill

instance (p : Page) : Decidable p.IsFill := inferInstanceAs (Decidable (∀ word ∈ _, _))

def fillBytes (w : UInt64) (buffer : List UInt8) : List UInt8 :=
  ((asChunks buffer).map fun _ => toNeBytes w).flatten

def pageChecksum (bytes : List UInt8) : UInt64 :=
  (asChunks bytes).foldl (fun hash word =>
    let hash := hash ^^^ fromNeBytes word
    let hash := hash * 0x100000001b3
    hash ^^^ (hash >>> 29)) 0xcbf29ce484222325

theorem asChunks_spec (n : ℕ) : ∀ bytes : List UInt8, bytes.length = 8 * n →
    (asChunks bytes).length = n ∧ (asChunks bytes).flatten = bytes ∧
      ∀ word ∈ asChunks bytes, word.length = 8 := by
  induction n with
  | zero =>
    intro bytes h
    rw [eq_nil_of_length_eq_zero h]
    simp [asChunks]
  | succ n ih =>
    intro bytes h
    match bytes, h with
    | a :: b :: c :: d :: e :: f :: g :: i :: rest, h =>
      obtain ⟨hlen, hflat, hwords⟩ := ih rest (by simp at h; omega)
      exact ⟨by simp [asChunks, hlen], by simp [asChunks, hflat],
        forall_mem_cons.mpr ⟨rfl, hwords⟩⟩

theorem toNeBytes_fromNeBytes {bytes : List UInt8} (h : bytes.length = 8) :
    toNeBytes (fromNeBytes bytes) = bytes := by
  match bytes, h with
  | [a, b, c, d, e, f, g, i], _ =>
    have ha := a.toNat_lt
    have hb := b.toNat_lt
    have hc := c.toNat_lt
    have hd := d.toNat_lt
    have he := e.toNat_lt
    have hf := f.toNat_lt
    have hg := g.toNat_lt
    have hi := i.toNat_lt
    have hword : (fromNeBytes [a, b, c, d, e, f, g, i]).toNat = a.toNat + 256 * (b.toNat + 256 *
        (c.toNat + 256 * (d.toNat + 256 * (e.toNat + 256 * (f.toNat + 256 * (g.toNat +
          256 * i.toNat)))))) := by
      simp only [fromNeBytes, foldr_cons, UInt64.toNat_ofNat']
      omega
    have hbyte : ∀ {n : ℕ} {x : UInt8}, n % 256 = x.toNat → UInt8.ofNat n = x := by
      intro n x hn
      apply UInt8.toNat_inj.mp
      rw [UInt8.toNat_ofNat', ← hn]
    simp only [toNeBytes, range_succ, range_zero, nil_append, cons_append,
      map_cons, map_nil]
    rw [hbyte (x := a) (by omega), hbyte (x := b) (by omega), hbyte (x := c) (by omega),
      hbyte (x := d) (by omega), hbyte (x := e) (by omega), hbyte (x := f) (by omega),
      hbyte (x := g) (by omega), hbyte (x := i) (by omega)]

theorem Page.IsFill.fillBytes_eq {p : Page} (h : p.IsFill) {buffer : List UInt8}
    (hbuffer : buffer.length = pageSize) : fillBytes p.fill buffer = p.bytes := by
  have hsize : pageSize = 8 * 512 := rfl
  obtain ⟨hlen, -, -⟩ := asChunks_spec 512 buffer (hbuffer.trans hsize)
  obtain ⟨hlen', hflat, hwords⟩ := asChunks_spec 512 p.bytes (p.length_eq.trans hsize)
  have hword : ∀ word ∈ asChunks p.bytes, word = toNeBytes p.fill := by
    intro word hw
    rw [← h word hw, toNeBytes_fromNeBytes (hwords word hw)]
  unfold fillBytes
  rw [map_const', hlen, ← hflat, eq_replicate_of_mem hword, hlen']


inductive SwapError where
  | full
  | incompressible
  | corrupt
  | io
deriving DecidableEq, Repr

inductive SwapHandle where
  | fill (word : UInt64)
  | compressed (slot : ℕ)
  | external (slot : ℕ)
deriving DecidableEq, Repr

/-- `data` is taken out during a load. -/
structure CompressedSlot where
  data : Option (List UInt8)
  checksum : UInt64
  resident : Bool
deriving DecidableEq

/-- `SwapManager` with the `SwapState` behind its lock. The released slots are a stack, the last
one first; `freeCapacity` is what has been reserved for it. -/
structure SwapManager where
  maximumCompressedBytes : ℕ
  compressedBytes : ℕ
  compressedPages : ℕ
  sameFillPages : ℕ
  externalPages : ℕ
  pageins : ℕ
  pageouts : ℕ
  rejectedPages : ℕ
  compressed : List CompressedSlot
  freeSlots : List ℕ
  freeCapacity : ℕ
  maximumSlots : ℕ
  backend : Bool
  residentPages : ℕ
  residentBytes : ℕ
deriving DecidableEq

/-- The block compression of `lz4_flex`. Decompression writes a buffer and returns how many bytes
it decoded. -/
structure Lz4 where
  compressInto : List UInt8 → Option (List UInt8)
  decompressInto : List UInt8 → List UInt8 → List UInt8 × Option ℕ

/-- Decompression inverts compression into any buffer of a page. -/
def Lz4.Inverts (codec : Lz4) : Prop := ∀ (p : Page) (payload buffer : List UInt8),
  codec.compressInto p.bytes = some payload → buffer.length = pageSize →
    codec.decompressInto payload buffer = (p.bytes, some pageSize)

/-- What a store meets: locks, allocations and the backend. -/
structure StoreAnswers where
  payload : Bool
  lock : Bool
  table : Bool
  free : Bool
  fallbackLock : Bool
  external : Except SwapError ℕ

abbrev SwapM := Act SwapError Panic SwapManager

def maxUsefulCompressedBytes : ℕ := pageSize / 2

def SwapManager.init (maximumCompressedBytes maximumSlots : ℕ) : SwapManager where
  maximumCompressedBytes := maximumCompressedBytes
  compressedBytes := 0
  compressedPages := 0
  sameFillPages := 0
  externalPages := 0
  pageins := 0
  pageouts := 0
  rejectedPages := 0
  compressed := []
  freeSlots := []
  freeCapacity := 0
  maximumSlots := max 64 (min maximumSlots (2 ^ 32 - 1))
  backend := false
  residentPages := 0
  residentBytes := 0

namespace SwapM
open Act

def checkedSub (a b : ℕ) : SwapM ℕ := do
  check (b ≤ a) .arithmeticOverflow
  return a - b

def pageOut : SwapM Unit := modify fun m => { m with pageouts := wrappingAdd m.pageouts 1 }

def pageIn : SwapM Unit := modify fun m => { m with pageins := wrappingAdd m.pageins 1 }

def entry (slot : ℕ) : SwapM CompressedSlot := do
  match (← get).compressed[slot]? with
  | some e => return e
  | none => stop .indexOutOfBounds

def setEntry (slot : ℕ) (e : CompressedSlot) : SwapM Unit :=
  modify fun m => { m with compressed := m.compressed.set slot e }

/-- Reserves a slot, extending the table only when none is recycled. Room to recycle every slot
of the table is reserved at the same time. -/
def takeSlot (answers : StoreAnswers) : SwapM (Option ℕ) := do
  let m ← get
  match m.freeSlots with
  | slot :: rest =>
    set { m with freeSlots := rest }
    return some slot
  | [] =>
    if m.maximumSlots ≤ m.compressed.length ∨ answers.table = false ∨ answers.free = false then
      return none
    else
      set { m with
        compressed := m.compressed ++ [{ data := none, checksum := 0, resident := false }]
        freeCapacity := max m.freeCapacity (m.compressed.length + 1) }
      return some (m.compressed.length % 2 ^ 32)

/-- The part of `store` that holds the lock. -/
def storeCompressed (payload : List UInt8) (checksum : UInt64) (answers : StoreAnswers) :
    SwapM (Option SwapHandle) := do
  let m ← get
  match checkedAdd m.compressedBytes payload.length with
  | none => return none
  | some next =>
    if m.maximumCompressedBytes < next then return none
    else match ← takeSlot answers with
    | none => return none
    | some slot =>
      let e ← entry slot
      check (e.data = none ∧ e.resident = false) .swapSlotInUse
      setEntry slot { e with data := some payload, checksum := checksum }
      modify fun m => { m with
        compressedBytes := next
        compressedPages := wrappingAdd m.compressedPages 1 }
      return some (.compressed slot)

/-- `store` falls back to the backend; without one, the compressed tier's error stands. -/
def storeExternal (error : SwapError) (answers : StoreAnswers) : SwapM SwapHandle := do
  if answers.fallbackLock = false then fail .full
  else if (← get).backend = false then fail error
  else match answers.external with
    | .error e => fail e
    | .ok slot =>
      modify fun m => { m with externalPages := wrappingAdd m.externalPages 1 }
      pageOut
      return .external slot

def store (codec : Lz4) (page : Page) (answers : StoreAnswers) : SwapM SwapHandle := do
  if page.IsFill then
    modify fun m => { m with sameFillPages := wrappingAdd m.sameFillPages 1 }
    pageOut
    return .fill page.fill
  else match codec.compressInto page.bytes with
    | none => fail .incompressible
    | some payload =>
      if maxUsefulCompressedBytes < payload.length then
        modify fun m => { m with rejectedPages := wrappingAdd m.rejectedPages 1 }
        storeExternal .incompressible answers
      else if answers.payload = false then storeExternal .full answers
      else if answers.lock = false then fail .full
      else match ← storeCompressed payload (pageChecksum page.bytes) answers with
        | some handle =>
          pageOut
          return handle
        | none => storeExternal .full answers

/-- First step of a load: take the payload out of its slot. -/
def loadBegin (slot : ℕ) : SwapM (List UInt8 × UInt64) := do
  match (← get).compressed[slot]? with
  | none => fail .corrupt
  | some e =>
    match e.data with
    | none => fail .corrupt
    | some data =>
      setEntry slot { e with data := none }
      return (data, e.checksum)

/-- Second step of a load: decode, and put the payload back on success as well as on error. -/
def loadFinish (codec : Lz4) (slot : ℕ) (data : List UInt8) (checksum : UInt64)
    (buffer : List UInt8) : SwapM (List UInt8) := do
  let (bytes, decoded) := codec.decompressInto data buffer
  match (← get).compressed[slot]? with
  | none => fail .corrupt
  | some e =>
    check (e.data = none) .swapSlotInUse
    setEntry slot { e with data := some data }
    if decoded = some pageSize ∧ pageChecksum bytes = checksum then
      pageIn
      return bytes
    else fail .corrupt

/-- Restore a page without consuming its slot. -/
def load (codec : Lz4) (handle : SwapHandle) (buffer : List UInt8)
    (external : Except SwapError (List UInt8)) : SwapM (List UInt8) := do
  match handle with
  | .fill word =>
    pageIn
    return fillBytes word buffer
  | .compressed slot =>
    let (data, checksum) ← loadBegin slot
    loadFinish codec slot data checksum buffer
  | .external _ =>
    if (← get).backend = false then fail .io
    else match external with
      | .error e => fail e
      | .ok bytes =>
        pageIn
        return bytes

def setResident (handle : SwapHandle) (resident : Bool) : SwapM Unit := do
  match handle with
  | .compressed slot =>
    let e ← entry slot
    if e.resident = resident then return ()
    else match e.data with
      | none => stop .residentTransitionDuringSwapIo
      | some data =>
        setEntry slot { e with resident := resident }
        let m ← get
        if resident then
          set { m with
            residentPages := m.residentPages + 1
            residentBytes := m.residentBytes + data.length }
        else
          let pages ← checkedSub m.residentPages 1
          let bytes ← checkedSub m.residentBytes data.length
          set { m with residentPages := pages, residentBytes := bytes }
  | _ => return ()

/-- The residency part of `free`. -/
def dropResident (resident : Bool) (length : ℕ) : SwapM Unit := do
  if resident then
    let m ← get
    let pages ← checkedSub m.residentPages 1
    let bytes ← checkedSub m.residentBytes length
    set { m with residentPages := pages, residentBytes := bytes }
  else return ()

/-- `free`; a backend that is gone has no slots to release. -/
def free (handle : SwapHandle) : SwapM Unit := do
  match handle with
  | .fill _ => modify fun m => { m with sameFillPages := wrappingSub m.sameFillPages 1 }
  | .compressed slot =>
    match (← get).compressed[slot]? with
    | none => return ()
    | some e =>
      match e.data with
      | none => return ()
      | some data =>
        setEntry slot { data := none, checksum := 0, resident := false }
        dropResident e.resident data.length
        let m ← get
        check (m.freeSlots.length < m.freeCapacity) .swapFreeListFull
        set { m with
          compressedBytes := wrappingSub m.compressedBytes data.length
          compressedPages := wrappingSub m.compressedPages 1
          freeSlots := slot % 2 ^ 32 :: m.freeSlots }
  | .external _ =>
    if (← get).backend then
      modify fun m => { m with externalPages := wrappingSub m.externalPages 1 }
    else return ()

def saturatingMul (a b : ℕ) : ℕ := min (a * b) (2 ^ 64 - 1)

/-- Count swap-only pages, leaving a margin of 1% for busy slots. -/
def isFull : SwapM Bool := do
  let m ← get
  if m.backend then return false
  else
    let occupied ← checkedSub m.compressed.length m.freeSlots.length
    let onlyPages ← checkedSub occupied m.residentPages
    let onlyBytes ← checkedSub m.compressedBytes m.residentBytes
    return decide (m.maximumSlots ≤ saturatingMul onlyPages 100 / 99 ∨
      m.maximumCompressedBytes ≤ saturatingMul onlyBytes 100 / 99)

end SwapM
end Roanix.Mem
