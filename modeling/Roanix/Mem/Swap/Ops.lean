import Roanix.Lib.Table
import Roanix.Mem.Swap.Basic

/-! What the slots of compressed swap stand for: each slot in use holds the payload of one page, in
place or taken out by a load, and the counters are sums over these pages. -/
namespace Roanix.Mem
open Lib Act

/-- A page in a slot: its payload, whether a resident copy exists, whether a load has the
payload. -/
structure Cell where
  page : Page
  payload : List UInt8
  resident : Bool
  loaned : Bool
deriving Inhabited

namespace Cell

def slot (c : Cell) : CompressedSlot where
  data := if c.loaned then none else some c.payload
  checksum := pageChecksum c.page.bytes
  resident := c.resident

def bytes (c : Cell) : ℕ := c.payload.length

def residentPages (c : Cell) : ℕ := if c.resident then 1 else 0

def residentBytes (c : Cell) : ℕ := if c.resident then c.payload.length else 0

end Cell

def slotView (o : Option Cell) : CompressedSlot := o.elim ⟨none, 0, false⟩ Cell.slot

namespace SwapManager

structure Inv (codec : Lz4) (m : SwapManager) (table : List (Option Cell)) : Prop where
  slots : m.compressed = table.map slotView
  recycled : Recycled table m.freeSlots
  coded : ∀ (i : ℕ) (c : Cell), table[i]? = some (some c) →
    codec.compressInto c.page.bytes = some c.payload
  bytes : m.compressedBytes = total Cell.bytes table
  bytes_le : m.compressedBytes ≤ m.maximumCompressedBytes
  bytes_lt : m.compressedBytes < 2 ^ 64
  pages : m.compressedPages = total (fun _ => 1) table
  residentPages : m.residentPages = total Cell.residentPages table
  residentBytes : m.residentBytes = total Cell.residentBytes table
  slots_le : table.length ≤ m.maximumSlots
  maximum_lt : m.maximumSlots < 2 ^ 32
  room : table.length ≤ m.freeCapacity
  backend : m.backend = false

variable {codec : Lz4} {m : SwapManager} {table : List (Option Cell)} {i : ℕ} {c : Cell}

theorem Inv.init (codec : Lz4) (bytes slots : ℕ) : Inv codec (init bytes slots) [] where
  slots := rfl
  recycled := .empty
  coded i c h := by simp at h
  bytes := rfl
  bytes_le := Nat.zero_le _
  bytes_lt := by simp [SwapManager.init]
  pages := rfl
  residentPages := rfl
  residentBytes := rfl
  slots_le := Nat.zero_le _
  maximum_lt := by
    simp only [SwapManager.init]
    omega
  room := le_rfl
  backend := rfl

theorem counter_set {f : Cell → ℕ} {old new : ℕ} {o : Option Cell}
    (hi : table[i]? = some (some c)) (h : old = total f table)
    (hnew : new + f c = old + o.elim 0 f) : new = total f (table.set i o) := by
  have hset : total f (table.set i o) + f c = total f table + o.elim 0 f := total_set f hi o
  omega

section
variable (h : m.Inv codec table)
include h

theorem Inv.traffic (fills ins outs rejected : ℕ) :
    Inv codec { m with
      sameFillPages := fills, pageins := ins, pageouts := outs, rejectedPages := rejected } table :=
  { h with }

theorem Inv.getElem? (i : ℕ) :
    m.compressed[i]? = table[i]?.map slotView := by
  rw [h.slots, List.getElem?_map]

theorem Inv.entry (hi : table[i]? = some (some c)) : m.compressed[i]? = some c.slot := by
  rw [h.getElem? i, hi]
  rfl

theorem Inv.set (i : ℕ) (o : Option Cell) :
    m.compressed.set i (slotView o) = (table.set i o).map slotView := by
  rw [h.slots, List.map_set]

theorem Inv.update (hi : table[i]? = some (some c)) (c' : Cell)
    (hpage : c'.page = c.page) (hpayload : c'.payload = c.payload) {pages bytes : ℕ}
    (hpages : pages + c.residentPages = m.residentPages + c'.residentPages)
    (hbytes : bytes + c.residentBytes = m.residentBytes + c'.residentBytes) :
    Inv codec { m with
      compressed := m.compressed.set i c'.slot
      residentPages := pages
      residentBytes := bytes } (table.set i (some c')) := by
  have hbytes' : m.compressedBytes + c.bytes = m.compressedBytes + c'.bytes := by
    rw [Cell.bytes, Cell.bytes, hpayload]
  refine ⟨h.set i (some c'), h.recycled.update hi c', ?_, counter_set hi h.bytes hbytes', h.bytes_le,
    h.bytes_lt, counter_set hi h.pages rfl, counter_set hi h.residentPages hpages,
    counter_set hi h.residentBytes hbytes, ?_, h.maximum_lt, ?_, h.backend⟩
  · intro j d hj
    rw [getElem?_set_some hi] at hj
    split_ifs at hj
    · obtain rfl : c' = d := by simpa using hj
      rw [hpage, hpayload]
      exact h.coded i c hi
    · exact h.coded j d hj
  · simpa using h.slots_le
  · simpa using h.room

theorem Inv.put (hc : codec.compressInto c.page.bytes = some c.payload)
    (hresident : c.resident = false) {table' : List (Option Cell)}
    {free : List ℕ} {capacity : ℕ} {compressed : List CompressedSlot}
    (hnew : ∀ j, table'[j]? = if j = i then some (some c) else table[j]?)
    (hslots : compressed = table'.map slotView) (hfree : Recycled table' free)
    (hsum : ∀ f : Cell → ℕ, total f table' = total f table + f c)
    (hle : m.compressedBytes + c.payload.length ≤ m.maximumCompressedBytes)
    (hlt : m.compressedBytes + c.payload.length < 2 ^ 64)
    (hlen : table'.length ≤ m.maximumSlots) (hroom : table'.length ≤ capacity) :
    Inv codec { m with
      compressed := compressed
      freeSlots := free
      freeCapacity := capacity
      compressedBytes := m.compressedBytes + c.payload.length
      compressedPages := wrappingAdd m.compressedPages 1 } table' := by
  have hpages := hsum fun _ => 1
  have hcount := hfree.length_add_total
  have hmax := h.maximum_lt
  refine ⟨hslots, hfree, ?_, ?_, hle, hlt, ?_, ?_, ?_, hlen, h.maximum_lt, hroom, h.backend⟩
  · intro j d hj
    rw [hnew j] at hj
    split_ifs at hj
    · obtain rfl : c = d := by simpa using hj
      exact hc
    · exact h.coded j d hj
  · rw [hsum Cell.bytes, ← h.bytes]
    rfl
  · -- no more pages than slots, so the counter does not wrap
    have hpages_eq := h.pages
    simp only at hpages_eq ⊢
    rw [wrappingAdd_eq (by omega)]
    omega
  · rw [hsum Cell.residentPages, ← h.residentPages]
    simp [Cell.residentPages, hresident]
  · rw [hsum Cell.residentBytes, ← h.residentBytes]
    simp [Cell.residentBytes, hresident]

theorem Inv.clear (hi : table[i]? = some (some c)) {pages bytes : ℕ}
    (hpages : pages + c.residentPages = m.residentPages)
    (hbytes : bytes + c.residentBytes = m.residentBytes) :
    Inv codec { m with
      compressed := m.compressed.set i ⟨none, 0, false⟩
      residentPages := pages
      residentBytes := bytes
      compressedBytes := wrappingSub m.compressedBytes c.payload.length
      compressedPages := wrappingSub m.compressedPages 1
      freeSlots := i % 2 ^ 32 :: m.freeSlots } (table.set i none) := by
  have hslot : i % 2 ^ 32 = i := Nat.mod_eq_of_lt (by
    have hlen := (List.getElem?_eq_some_iff.mp hi).1
    have := h.slots_le
    have := h.maximum_lt
    omega)
  have hb : c.payload.length ≤ m.compressedBytes := h.bytes ▸ le_total Cell.bytes hi
  have hp : 1 ≤ m.compressedPages := h.pages ▸ le_total (fun _ => 1) hi
  rw [wrappingSub_eq hb, wrappingSub_eq hp]
  refine ⟨h.set i none, ?_, ?_, counter_set hi h.bytes (Nat.sub_add_cancel hb),
    (Nat.sub_le _ _).trans h.bytes_le, (Nat.sub_le _ _).trans_lt h.bytes_lt,
    counter_set hi h.pages (Nat.sub_add_cancel hp), counter_set hi h.residentPages hpages,
    counter_set hi h.residentBytes hbytes, ?_, h.maximum_lt, ?_, h.backend⟩
  · simp only [hslot]
    exact h.recycled.release hi
  · intro j d hj
    rw [getElem?_set_some hi] at hj
    split_ifs at hj
    · cases hj
    · exact h.coded j d hj
  · simpa using h.slots_le
  · simpa using h.room

end

end SwapManager

namespace SwapM
open Cell List
variable {codec : Lz4} {m : SwapManager} {table : List (Option Cell)} {i : ℕ} {c : Cell}
  {T : Panic → Prop} {E : SwapError → SwapManager → Prop}

theorem wp_checkedSub {a b : ℕ} (h : b ≤ a) (Q : ℕ → SwapManager → Prop) :
    wp T (checkedSub a b) Q E m = Q (a - b) m := by
  simp only [checkedSub, wp_bind, wp_check h, wp_pure]

theorem wp_entry {e : CompressedSlot} (h : m.compressed[i]? = some e)
    (Q : CompressedSlot → SwapManager → Prop) : wp T (entry i) Q E m = Q e m := by
  simp only [entry, wp_bind, wp_get, h, wp_pure]

section
variable (Q : Unit → SwapManager → Prop)
include Q

@[simp] theorem wp_setEntry (i : ℕ) (e : CompressedSlot) :
    wp T (setEntry i e) Q E m = Q () { m with compressed := m.compressed.set i e } := rfl

@[simp] theorem wp_pageOut :
    wp T pageOut Q E m = Q () { m with pageouts := wrappingAdd m.pageouts 1 } := rfl

@[simp] theorem wp_pageIn :
    wp T pageIn Q E m = Q () { m with pageins := wrappingAdd m.pageins 1 } := rfl

end

structure Stored (table : List (Option Cell)) (c : Cell) (i : ℕ) (table' : List (Option Cell)) :
    Prop where
  vacant : table[i]?.join = none
  filled : ∀ j, table'[j]? = if j = i then some (some c) else table[j]?
  sum : ∀ f : Cell → ℕ, total f table' = total f table + f c

theorem stored_set (h : table[i]? = some none) (c : Cell) : Stored table c i (table.set i (some c)) := by
  constructor
  · rw [h]
    rfl
  · exact getElem?_set_some h (some c)
  · intro f
    simpa using total_set f h (some c)

theorem stored_append (table : List (Option Cell)) (c : Cell) :
    Stored table c table.length (table ++ [some c]) := by
  constructor
  · simp
  · intro j
    rw [getElem?_append]
    split_ifs with hlt hj hj
    · omega
    · rfl
    · simp [hj]
    · rw [getElem?_eq_none (by simp only [length_singleton]; omega),
        getElem?_eq_none (by omega)]
  · intro f
    simp [total]

section
variable (h : m.Inv codec table)
include h

theorem wp_takeSlot (c : Cell) (answers : StoreAnswers)
    {Q : Option ℕ → SwapManager → Prop} (hnone : Q none m)
    (hsome : ∀ slot table' compressed free capacity, Stored table c slot table' →
      compressed[slot]? = some ⟨none, 0, false⟩ →
      compressed.set slot c.slot = table'.map slotView → Recycled table' free →
      table'.length ≤ m.maximumSlots → table'.length ≤ capacity →
      Q (some slot) { m with
        compressed := compressed, freeSlots := free, freeCapacity := capacity }) :
    wp T (takeSlot answers) Q E m := by
  unfold takeSlot
  simp only [wp_bind, wp_get]
  have hrec := h.recycled
  cases hfree : m.freeSlots with
  | cons slot rest =>
    rw [hfree] at hrec
    obtain ⟨hempty, hrec⟩ := hrec.take c
    apply hsome slot (table.set slot (some c)) m.compressed rest m.freeCapacity
    · exact stored_set hempty c
    · rw [h.getElem? slot, hempty]
      rfl
    · exact h.set slot (some c)
    · exact hrec
    · simpa using h.slots_le
    · simpa using h.room
  | nil =>
    rw [hfree] at hrec
    simp only [wp_ite, wp_pure]
    by_cases hstop : m.maximumSlots ≤ m.compressed.length ∨ answers.table = false ∨
        answers.free = false
    · rw [if_pos hstop]
      exact hnone
    · rw [if_neg hstop]
      have hlen : m.compressed.length = table.length := by
        rw [h.slots, length_map]
      have hslot : m.compressed.length % 2 ^ 32 = table.length := by
        have := h.maximum_lt
        omega
      rw [hslot, ← hfree]
      apply hsome table.length (table ++ [some c])
      · exact stored_append table c
      · rw [← hlen]
        simp
      · rw [h.slots, ← length_map slotView]
        simp [slotView]
      · rw [hfree]
        exact hrec.grow c
      · simp only [length_append, length_singleton]
        omega
      · simp only [length_append, length_singleton]
        omega

theorem storeCompressed_spec {page : Page} {payload : List UInt8}
    (hpayload : codec.compressInto page.bytes = some payload) (answers : StoreAnswers) :
    wp T (storeCompressed payload (pageChecksum page.bytes) answers)
      (fun handle m' => match handle with
        | none => m' = m
        | some handle => ∃ i table', handle = .compressed i ∧
            Stored table ⟨page, payload, false, false⟩ i table' ∧ m'.Inv codec table')
      E m := by
  unfold storeCompressed
  simp only [wp_bind, wp_get]
  cases hnext : checkedAdd m.compressedBytes payload.length with
  | none => rfl
  | some next =>
    obtain ⟨rfl, hlt⟩ := checkedAdd_eq_some.mp hnext
    simp only [wp_ite]
    by_cases hfull : m.maximumCompressedBytes < m.compressedBytes + payload.length
    · rw [if_pos hfull]
      trivial
    rw [if_neg hfull]
    simp only [wp_bind]
    apply wp_takeSlot h ⟨page, payload, false, false⟩ answers
    · rfl
    intro slot table' compressed free capacity hstored hempty hslots hrec hmax hcap
    simp only [wp_bind]
    rw [wp_entry hempty]
    refine ⟨slot, table', rfl, hstored, ?_⟩
    exact h.put hpayload rfl hstored.filled hslots hrec
      hstored.sum (not_lt.mp hfull) hlt hmax hcap

theorem store_spec (page : Page) (answers : StoreAnswers) :
    wp T (store codec page answers)
      (fun handle m' => match handle with
        | .fill word => page.IsFill ∧ word = page.fill ∧ m'.Inv codec table
        | .compressed i => ∃ payload table',
            Stored table ⟨page, payload, false, false⟩ i table' ∧ m'.Inv codec table'
        | .external _ => False)
      (fun _ m' => m'.Inv codec table) m := by
  have hexternal : ∀ (error : SwapError) (m' : SwapManager) (Q : SwapHandle → SwapManager → Prop),
      m'.Inv codec table → wp T (storeExternal error answers) Q
        (fun _ m' => m'.Inv codec table) m' := by
    intro error m' Q h'
    unfold storeExternal
    simp only [wp_ite, wp_bind, wp_get, h'.backend]
    split_ifs <;> exact h'
  unfold store
  by_cases hfill : page.IsFill
  · rw [if_pos hfill]
    simp only [wp_bind, wp_pure]
    exact ⟨hfill, trivial, h.traffic _ _ _ _⟩
  rw [if_neg hfill]
  cases hpayload : codec.compressInto page.bytes with
  | none => exact h
  | some payload =>
    simp only [wp_ite, wp_bind, wp_fail]
    split_ifs
    · exact hexternal _ _ _ (h.traffic _ _ _ _)
    · exact hexternal _ _ _ h
    · exact h
    · apply wp_post (storeCompressed_spec h hpayload answers)
      intro handle m' hstored
      cases handle with
      | none =>
        subst hstored
        exact hexternal _ _ _ h
      | some handle =>
        obtain ⟨i, table', rfl, hstored, hinv⟩ := hstored
        exact ⟨payload, table', hstored, hinv.traffic _ _ _ _⟩

theorem loadBegin_spec (hi : table[i]? = some (some c)) :
    wp T (loadBegin i)
      (fun out m' => c.loaned = false ∧ out = (c.payload, pageChecksum c.page.bytes) ∧
        m'.Inv codec (table.set i (some { c with loaned := true })))
      (fun e m' => c.loaned = true ∧ e = .corrupt ∧ m' = m) m := by
  unfold loadBegin
  simp only [wp_bind, wp_get, h.entry hi]
  cases hloan : c.loaned with
  | true =>
    simp only [slot, hloan, if_true]
    trivial
  | false =>
    simp only [slot, hloan, Bool.false_eq_true, if_false, wp_bind, wp_pure]
    refine ⟨trivial, trivial, ?_⟩
    exact h.update hi { c with loaned := true } rfl rfl rfl rfl

end

section
variable (h : m.Inv codec table) (hi : table[i]? = some (some c))
include h hi

theorem loadFinish_spec (hcodec : codec.Inverts) (hloan : c.loaned = true) {buffer : List UInt8}
    (hbuffer : buffer.length = pageSize) :
    wp T (loadFinish codec i c.payload (pageChecksum c.page.bytes) buffer)
      (fun bytes m' => bytes = c.page.bytes ∧
        m'.Inv codec (table.set i (some { c with loaned := false })))
      E m := by
  unfold loadFinish
  rw [hcodec c.page c.payload buffer (h.coded i c hi) hbuffer]
  simp only [wp_bind, wp_get, h.entry hi]
  rw [wp_check (by simp [slot, hloan])]
  simp only [and_self, if_true, wp_bind, wp_pure]
  refine ⟨trivial, ?_⟩
  exact (h.update hi { c with loaned := false } rfl rfl rfl rfl).traffic _ _ _ _

theorem load_spec (hcodec : codec.Inverts) (hloan : c.loaned = false) {buffer : List UInt8}
    (hbuffer : buffer.length = pageSize) (external : Except SwapError (List UInt8)) :
    wp T (load codec (.compressed i) buffer external)
      (fun bytes m' => bytes = c.page.bytes ∧ m'.Inv codec table) E m := by
  have hlen := (List.getElem?_eq_some_iff.mp hi).1
  unfold load
  simp only [wp_bind]
  apply wp_imp (loadBegin_spec h hi)
  · rintro out m' ⟨-, rfl, hinv⟩
    apply wp_post (loadFinish_spec hinv (getElem?_set_self hlen) hcodec rfl hbuffer)
    rintro bytes m'' ⟨rfl, hinv'⟩
    refine ⟨rfl, ?_⟩
    -- taking the payload and putting it back leaves the table as it was
    rw [set_set] at hinv'
    have hcell : { c with loaned := false } = c := by
      cases c
      simp_all
    have hsame : table.set i (some c) = table := set_self hi
    simp only [hcell, hsame] at hinv'
    exact hinv'
  · rintro e m' ⟨hl, -⟩
    rw [hloan] at hl
    cases hl

theorem resident_le : c.residentPages ≤ m.residentPages ∧ c.residentBytes ≤ m.residentBytes := by
  rw [h.residentPages, h.residentBytes]
  exact ⟨le_total _ hi, le_total _ hi⟩

theorem setResident_spec (resident : Bool) :
    wp (fun p => p = .residentTransitionDuringSwapIo ∧ c.loaned = true)
      (setResident (.compressed i) resident)
      (fun _ m' => m'.Inv codec (table.set i (some { c with resident := resident })))
      E m := by
  unfold setResident
  simp only [wp_bind]
  rw [wp_entry (h.entry hi)]
  by_cases hsame : c.resident = resident
  · have hcell : { c with resident := resident } = c := by
      cases c
      simp_all
    simp only [slot, hsame, if_true, hcell]
    have htable : table.set i (some c) = table := set_self hi
    rw [htable]
    exact h
  cases hloan : c.loaned with
  | true =>
    simp only [slot, if_neg hsame, hloan, if_true]
    trivial
  | false =>
    simp only [slot, if_neg hsame, hloan, Bool.false_eq_true, if_false, wp_bind, wp_setEntry,
      wp_get, wp_ite]
    obtain ⟨hpages, hbytes⟩ := resident_le h hi
    cases resident with
    | true =>
      have hr : c.resident = false := by simpa using hsame
      apply h.update hi { c with resident := true, loaned := false } rfl rfl
      · simp [residentPages, hr]
      · simp [residentBytes, hr]
    | false =>
      have hr : c.resident = true := by simpa using hsame
      simp only [residentPages, residentBytes, hr, if_true] at hpages hbytes
      rw [wp_checkedSub hpages, wp_checkedSub hbytes]
      apply h.update hi { c with resident := false, loaned := false } rfl rfl
      · simp [residentPages, hr, Nat.sub_add_cancel hpages]
      · simp [residentBytes, hr, Nat.sub_add_cancel hbytes]

theorem free_spec (hloan : c.loaned = false) :
    wp T (free (.compressed i)) (fun _ m' => m'.Inv codec (table.set i none)) E m := by
  obtain ⟨hpages, hbytes⟩ := resident_le h hi
  have hroom : m.freeSlots.length < m.freeCapacity := by
    have := h.recycled.length_add_total
    have := le_total (fun _ => 1) hi
    have := h.room
    omega
  unfold free
  simp only [wp_bind, wp_get, h.entry hi, slot, hloan, Bool.false_eq_true, if_false,
    wp_setEntry]
  unfold dropResident
  cases hr : c.resident with
  | true =>
    simp only [residentPages, residentBytes, hr, if_true] at hpages hbytes
    simp only [if_true, wp_bind, wp_get]
    rw [wp_checkedSub hpages, wp_checkedSub hbytes]
    simp only [wp_set]
    rw [wp_check hroom]
    apply h.clear hi
    · simp [residentPages, hr, Nat.sub_add_cancel hpages]
    · simp [residentBytes, hr, Nat.sub_add_cancel hbytes]
  | false =>
    simp only [Bool.false_eq_true, if_false, wp_pure]
    rw [wp_check hroom]
    apply h.clear hi
    · simp [residentPages, hr]
    · simp [residentBytes, hr]

end

theorem isFull_spec (h : m.Inv codec table) :
    wp T isFull (fun _ m' => m' = m) E m := by
  have hlen : m.compressed.length = table.length := by rw [h.slots, length_map]
  have hcount := h.recycled.length_add_total
  have hpages := total_mono (f := residentPages) (g := fun _ => 1)
    (fun c => by unfold residentPages; split_ifs <;> omega) table
  have hbytes := total_mono (f := residentBytes) (g := bytes)
    (fun c => by unfold residentBytes bytes; split_ifs <;> omega) table
  rw [← h.residentPages] at hpages
  rw [← h.residentBytes, ← h.bytes] at hbytes
  unfold isFull
  simp only [wp_bind, wp_get, h.backend, Bool.false_eq_true, if_false]
  rw [wp_checkedSub (by omega), wp_checkedSub (by omega), wp_checkedSub hbytes]
  simp only [wp_pure]

end SwapM
end Roanix.Mem
