import Roanix.Mem.Swap.Ops

/-! The clients of compressed swap. They store pages, load them as often as they like, and free each
handle once; loads may be interleaved with any other call. -/
namespace Roanix.Mem
open Lib Act List

namespace SwapM

structure Loan where
  slot : ℕ
  data : List UInt8
  checksum : UInt64
deriving DecidableEq

/-- The manager, the handles in use with the pages stored under them, and the loads under way. -/
structure Session where
  manager : SwapManager
  live : List (SwapHandle × Page)
  loans : List Loan

/-- The payload of a slot, in place or taken out by a load. -/
def Session.payload (σ : Session) (i : ℕ) : Option (List UInt8) :=
  match σ.manager.compressed[i]? with
  | none => none
  | some e => e.data.or ((σ.loans.find? (·.slot = i)).map (·.data))

def Session.resident (σ : Session) (i : ℕ) : Bool :=
  (σ.manager.compressed[i]?.map (·.resident)).getD false

/-- The handles in use are the pages of the table, and fill words. -/
structure Holds (live : List (SwapHandle × Page)) (table : List (Option Cell)) : Prop where
  slots : ∀ i p, (.compressed i, p) ∈ live ↔ ∃ c, table[i]? = some (some c) ∧ c.page = p
  once : ∀ i p, live.count (.compressed i, p) ≤ 1
  fills : ∀ word p, (.fill word, p) ∈ live → p.IsFill ∧ word = p.fill
  external : ∀ slot p, (.external slot, p) ∉ live

structure Lent (loans : List Loan) (table : List (Option Cell)) : Prop where
  cells : ∀ loan, loan ∈ loans ↔ ∃ c, table[loan.slot]? = some (some c) ∧ c.loaned = true ∧
    loan.data = c.payload ∧ loan.checksum = pageChecksum c.page.bytes
  nodup : loans.Nodup

section Table
variable {live : List (SwapHandle × Page)} {loans : List Loan} {table table' : List (Option Cell)}
  {i : ℕ} {c c' : Cell}

section
variable (h : Holds live table)
include h

theorem Holds.update (hi : table[i]? = some (some c))
    (hpage : c'.page = c.page) : Holds live (table.set i (some c')) := by
  refine { h with slots := fun j p => ?_ }
  rw [h.slots j p, getElem?_set_some hi]
  split_ifs with hj
  · simp [hj, hi, hpage]
  · rfl

theorem Holds.fill {page : Page} (hfill : page.IsFill) :
    Holds ((.fill page.fill, page) :: live) table := by
  constructor
  · intro i p
    rw [← h.slots i p]
    simp
  · intro i p
    exact h.once i p
  · intro word p hp
    rcases mem_cons.mp hp with heq | hp
    · obtain ⟨rfl, rfl⟩ := by simpa using heq
      exact ⟨hfill, rfl⟩
    · exact h.fills word p hp
  · intro slot p hp
    exact h.external slot p (by simpa using hp)

theorem Holds.erase (x : SwapHandle × Page)
    (hslots : ∀ i p, (.compressed i, p) ∈ live.erase x ↔
      ∃ c, table'[i]? = some (some c) ∧ c.page = p) : Holds (live.erase x) table' where
  slots := hslots
  once i p := (erase_sublist.count_le _).trans (h.once i p)
  fills word p hp := h.fills word p (mem_of_mem_erase hp)
  external slot p hp := h.external slot p (mem_of_mem_erase hp)

theorem Holds.stored (hs : Stored table c i table') :
    Holds ((.compressed i, c.page) :: live) table' := by
  have hnew : ∀ p, (.compressed i, p) ∉ live := by
    intro p hp
    obtain ⟨d, hd, -⟩ := (h.slots i p).mp hp
    have := hs.vacant
    rw [hd] at this
    cases this
  constructor
  · intro j p
    rw [mem_cons, h.slots j p, hs.filled j]
    by_cases hj : j = i
    · subst hj
      have hnone : ¬∃ d, table[j]? = some (some d) ∧ d.page = p := by
        rw [← h.slots j p]
        exact hnew p
      simp only [hnone, if_true]
      simp [eq_comm]
    · simp [hj]
  · intro j p
    have hold := h.once j p
    rw [count_cons]
    split_ifs with heq
    · have hpair : (SwapHandle.compressed i, c.page) = (.compressed j, p) := by simpa using heq
      have hi : i = j := by simpa using congrArg Prod.fst hpair
      have := count_eq_zero.mpr (hnew p)
      rw [hi] at this
      omega
    · omega
  · intro word p hp
    exact h.fills word p (by simpa using hp)
  · intro slot p hp
    exact h.external slot p (by simpa using hp)

theorem Holds.clear (hi : table[i]? = some (some c)) :
    Holds (live.erase (.compressed i, c.page)) (table.set i none) := by
  refine h.erase _ fun j p => ?_
  rw [getElem?_set_some hi]
  by_cases hj : j = i
  · subst hj
    constructor
    · intro hp
      obtain ⟨d, hd, hdp⟩ := (h.slots j p).mp (mem_of_mem_erase hp)
      obtain rfl : c = d := by simpa [hi] using hd
      subst hdp
      have hcount := count_pos_iff.mpr hp
      rw [count_erase_self] at hcount
      have := h.once j c.page
      omega
    · rintro ⟨d, hd, -⟩
      simp at hd
  · rw [mem_erase_of_ne (by simp [hj]), h.slots j p, if_neg hj]

end

section
variable (h : Lent loans table)
include h

theorem Lent.slot_ne (hi : table[i]? = some (some c)) (hin : c.loaned = false)
    {loan : Loan} (hl : loan ∈ loans) : loan.slot ≠ i := by
  rintro rfl
  obtain ⟨d, hd, hlent, -⟩ := (h.cells loan).mp hl
  obtain rfl : c = d := by simpa [hi] using hd
  rw [hin] at hlent
  cases hlent

theorem Lent.congr {o : Option (Option Cell)}
    (hnew : ∀ j, table'[j]? = if j = i then o else table[j]?)
    (hold : ∀ d, table[i]? = some (some d) → d.loaned = false)
    (ho : ∀ d, o = some (some d) → d.loaned = false) : Lent loans table' := by
  refine ⟨fun loan => ?_, h.nodup⟩
  rw [h.cells loan, hnew]
  split_ifs with hj
  · rw [hj]
    constructor
    · rintro ⟨d, hd, hlent, -⟩
      cases (hold d hd).symm.trans hlent
    · rintro ⟨d, hd, hlent, -⟩
      cases (ho d hd).symm.trans hlent
  · rfl

theorem Lent.stored (hs : Stored table c i table') (hin : c.loaned = false) :
    Lent loans table' := by
  apply h.congr hs.filled
  · intro d hd
    have hvacant := hs.vacant
    rw [hd] at hvacant
    cases hvacant
  · rintro d heq
    obtain rfl : c = d := by simpa using heq
    exact hin

theorem Lent.clear (hi : table[i]? = some (some c)) (hin : c.loaned = false) :
    Lent loans (table.set i none) := by
  apply h.congr (getElem?_set_some hi none)
  · intro d hd
    obtain rfl : c = d := by simpa [hi] using hd
    exact hin
  · intro d hd
    cases hd

theorem Lent.in_place (hi : table[i]? = some (some c))
    (hfree : ∀ loan ∈ loans, SwapHandle.compressed i ≠ .compressed loan.slot) :
    c.loaned = false := by
  by_contra hout
  rw [Bool.not_eq_false] at hout
  exact hfree ⟨i, c.payload, _⟩ ((h.cells _).mpr ⟨c, hi, hout, rfl, rfl⟩) rfl

theorem Lent.resident (hi : table[i]? = some (some c)) (resident : Bool) :
    Lent loans (table.set i (some { c with resident := resident })) := by
  refine ⟨fun loan => ?_, h.nodup⟩
  rw [h.cells loan, getElem?_set_some hi]
  split_ifs with hj
  · simp [hj, hi]
  · rfl

end

def Cell.loan (c : Cell) (i : ℕ) : Loan := ⟨i, c.payload, pageChecksum c.page.bytes⟩

theorem Lent.lend (h : Lent loans table) (hi : table[i]? = some (some c)) (hin : c.loaned = false) :
    Lent (Cell.loan c i :: loans) (table.set i (some { c with loaned := true })) := by
  have hnot : Cell.loan c i ∉ loans := fun hmem => h.slot_ne hi hin hmem rfl
  refine ⟨fun loan => ?_, nodup_cons.mpr ⟨hnot, h.nodup⟩⟩
  rw [mem_cons, h.cells loan, getElem?_set_some hi]
  split_ifs with hj
  · rw [hj, hi]
    constructor
    · rintro (rfl | ⟨d, hd, hlent, -⟩)
      · exact ⟨_, rfl, rfl, rfl, rfl⟩
      · obtain rfl : c = d := by simpa using hd
        rw [hin] at hlent
        cases hlent
    · rintro ⟨d, hd, -, hdata, hsum⟩
      obtain rfl : { c with loaned := true } = d := by simpa using hd
      cases loan
      simp_all [Cell.loan]
  · constructor
    · rintro (rfl | hrest)
      · exact absurd rfl hj
      · exact hrest
    · exact .inr

theorem Lent.give_back (h : Lent loans table) (hi : table[i]? = some (some c)) :
    Lent (loans.erase (Cell.loan c i)) (table.set i (some { c with loaned := false })) := by
  refine ⟨fun loan => ?_, h.nodup.erase _⟩
  rw [h.nodup.mem_erase_iff, h.cells loan, getElem?_set_some hi]
  split_ifs with hj
  · rw [hj]
    constructor
    · rintro ⟨hne, d, hd, -, hdata, hsum⟩
      cases loan
      simp_all [Cell.loan]
    · rintro ⟨d, hd, hlent, -⟩
      obtain rfl : { c with loaned := false } = d := by simpa using hd
      cases hlent
  · constructor
    · exact fun hl => hl.2
    · intro hl
      refine ⟨?_, hl⟩
      rintro rfl
      exact hj rfl

end Table

inductive Call where
  | store (page : Page) (answers : StoreAnswers)
  | load (handle : SwapHandle) (page : Page) (buffer : List UInt8)
      (external : Except SwapError (List UInt8))
  | loadBegin (slot : ℕ) (page : Page)
  | loadFinish (loan : Loan) (buffer : List UInt8)
  | setResident (handle : SwapHandle) (page : Page) (resident : Bool)
  | free (handle : SwapHandle) (page : Page)

/-- A handle is used between its store and its free, and not freed during a load. -/
def Call.Allowed (σ : Session) : Call → Prop
  | .store _ _ => True
  | .load handle page buffer _ => (handle, page) ∈ σ.live ∧ buffer.length = pageSize
  | .loadBegin slot page => (.compressed slot, page) ∈ σ.live
  | .loadFinish loan buffer => loan ∈ σ.loans ∧ buffer.length = pageSize
  | .setResident handle page _ => (handle, page) ∈ σ.live
  | .free handle page => (handle, page) ∈ σ.live ∧ ∀ loan ∈ σ.loans, handle ≠ .compressed loan.slot

instance (σ : Session) : (c : Call) → Decidable (c.Allowed σ)
  | .store _ _ => inferInstanceAs (Decidable True)
  | .load handle page buffer _ =>
    inferInstanceAs (Decidable ((handle, page) ∈ σ.live ∧ buffer.length = pageSize))
  | .loadBegin slot page => inferInstanceAs (Decidable ((.compressed slot, page) ∈ σ.live))
  | .loadFinish loan buffer => inferInstanceAs (Decidable (loan ∈ σ.loans ∧ buffer.length = pageSize))
  | .setResident handle page _ => inferInstanceAs (Decidable ((handle, page) ∈ σ.live))
  | .free handle page => inferInstanceAs
      (Decidable ((handle, page) ∈ σ.live ∧ ∀ loan ∈ σ.loans, handle ≠ .compressed loan.slot))

def Call.exec (codec : Lz4) (σ : Session) : Call → SwapM (List (SwapHandle × Page) × List Loan)
  | .store page answers => do
    let handle ← SwapM.store codec page answers
    return ((handle, page) :: σ.live, σ.loans)
  | .load handle _ buffer external => do
    let _ ← SwapM.load codec handle buffer external
    return (σ.live, σ.loans)
  | .loadBegin slot _ => do
    let (data, checksum) ← SwapM.loadBegin slot
    return (σ.live, ⟨slot, data, checksum⟩ :: σ.loans)
  | .loadFinish loan buffer => do
    let _ ← SwapM.loadFinish codec loan.slot loan.data loan.checksum buffer
    return (σ.live, σ.loans.erase loan)
  | .setResident handle _ resident => do
    SwapM.setResident handle resident
    return (σ.live, σ.loans)
  | .free handle page => do
    SwapM.free handle
    return (σ.live.erase (handle, page), σ.loans)

inductive Reachable (codec : Lz4) : Session → Prop
  | init (bytes slots : ℕ) : Reachable codec ⟨.init bytes slots, [], []⟩
  | ok {σ : Session} {c : Call} {live : List (SwapHandle × Page)} {loans : List Loan}
      {m : SwapManager} (hσ : Reachable codec σ) (hc : c.Allowed σ)
      (h : c.exec codec σ σ.manager = .ok (live, loans) m) : Reachable codec ⟨m, live, loans⟩
  | err {σ : Session} {c : Call} {e : SwapError} {m : SwapManager} (hσ : Reachable codec σ)
      (hc : c.Allowed σ) (h : c.exec codec σ σ.manager = .err e m) :
      Reachable codec ⟨m, σ.live, σ.loans⟩

def Session.Good (codec : Lz4) (σ : Session) : Prop :=
  ∃ table, σ.manager.Inv codec table ∧ Holds σ.live table ∧ Lent σ.loans table

variable {codec : Lz4} {σ : Session}

/-- Only a residency change of a page that is being loaded stops. -/
def Call.MayStop (σ : Session) (p : Panic) : Call → Prop
  | .setResident (.compressed slot) _ _ =>
    p = .residentTransitionDuringSwapIo ∧ ∃ loan ∈ σ.loans, loan.slot = slot
  | _ => False

theorem Call.exec_spec (hcodec : codec.Inverts) (h : σ.Good codec) {c : Call} (hc : c.Allowed σ) :
    wp (fun p => c.MayStop σ p) (c.exec codec σ)
      (fun out m => Session.Good codec ⟨m, out.1, out.2⟩)
      (fun _ m => Session.Good codec ⟨m, σ.live, σ.loans⟩) σ.manager := by
  obtain ⟨table, hinv, hholds, hlent⟩ := h
  have hsame : ∀ {m : SwapManager}, m.Inv codec table →
      Session.Good codec ⟨m, σ.live, σ.loans⟩ := fun hm => ⟨table, hm, hholds, hlent⟩
  cases c with
  | store page answers =>
    simp only [exec, wp_bind]
    apply wp_imp (store_spec hinv page answers)
    · intro handle m hstore
      cases handle with
      | fill word =>
        obtain ⟨hfill, rfl, hm⟩ := hstore
        exact ⟨table, hm, hholds.fill hfill, hlent⟩
      | compressed i =>
        obtain ⟨payload, table', hs, hm⟩ := hstore
        exact ⟨table', hm, hholds.stored hs, hlent.stored hs rfl⟩
      | external slot => exact hstore.elim
    · exact fun _ _ hm => hsame hm
  | load handle page buffer external =>
    obtain ⟨hlive, hbuffer⟩ := hc
    simp only [exec, wp_bind]
    cases handle with
    | fill word => exact hsame (hinv.traffic _ _ _ _)
    | external slot => exact (hholds.external slot page hlive).elim
    | compressed i =>
      obtain ⟨c, hi, rfl⟩ := (hholds.slots i page).mp hlive
      cases hloan : c.loaned with
      | false =>
        apply wp_post (load_spec hinv hi hcodec hloan hbuffer external)
        exact fun _ _ hm => hsame hm.2
      | true =>
        -- another load has the payload, so this one fails and changes nothing
        unfold SwapM.load
        simp only [wp_bind]
        apply wp_imp (loadBegin_spec hinv hi)
        · rintro out m ⟨hin, -⟩
          rw [hloan] at hin
          cases hin
        · rintro e m ⟨-, -, rfl⟩
          exact hsame hinv
  | loadBegin i page =>
    obtain ⟨c, hi, rfl⟩ := (hholds.slots i page).mp hc
    simp only [exec, wp_bind]
    apply wp_imp (loadBegin_spec hinv hi)
    · rintro out m ⟨hin, rfl, hm⟩
      exact ⟨_, hm, hholds.update hi rfl, hlent.lend hi hin⟩
    · rintro e m ⟨-, -, rfl⟩
      exact hsame hinv
  | loadFinish loan buffer =>
    obtain ⟨hloan, hbuffer⟩ := hc
    obtain ⟨c, hi, hout, hdata, hsum⟩ := (hlent.cells loan).mp hloan
    have heq : loan = Cell.loan c loan.slot := by
      cases loan
      simp_all [Cell.loan]
    simp only [exec, wp_bind, hdata, hsum]
    apply wp_post (loadFinish_spec hinv hi hcodec hout hbuffer)
    rintro bytes m ⟨-, hm⟩
    refine ⟨_, hm, hholds.update hi rfl, ?_⟩
    have := hlent.give_back hi
    rwa [← heq] at this
  | setResident handle page resident =>
    simp only [exec, wp_bind]
    cases handle with
    | fill word | external slot => exact hsame hinv
    | compressed i =>
      obtain ⟨c, hi, rfl⟩ := (hholds.slots i page).mp hc
      apply wp_mono (setResident_spec hinv hi resident)
      · rintro p ⟨rfl, hout⟩
        exact ⟨rfl, Cell.loan c i, (hlent.cells _).mpr ⟨c, hi, hout, rfl, rfl⟩, rfl⟩
      · exact fun _ m hm => ⟨_, hm, hholds.update hi rfl, hlent.resident hi resident⟩
      · exact fun _ _ he => he
  | free handle page =>
    obtain ⟨hlive, hfree⟩ := hc
    simp only [exec, wp_bind]
    cases handle with
    | fill word => exact ⟨table, hinv.traffic _ _ _ _, hholds.erase _ fun i p =>
        by rw [mem_erase_of_ne (by simp), hholds.slots i p], hlent⟩
    | external slot => exact (hholds.external slot page hlive).elim
    | compressed i =>
      obtain ⟨c, hi, rfl⟩ := (hholds.slots i page).mp hlive
      have hin := hlent.in_place hi hfree
      apply wp_post (free_spec hinv hi hin)
      intro _ m hm
      exact ⟨_, hm, hholds.clear hi, hlent.clear hi hin⟩

theorem Reachable.good (hcodec : codec.Inverts) (h : Reachable codec σ) : σ.Good codec := by
  induction h with
  | init bytes slots =>
    refine ⟨[], .init codec bytes slots, ⟨?_, ?_, ?_, ?_⟩, ⟨?_, nodup_nil⟩⟩ <;> simp
  | ok _ hc hrun ih =>
    exact (wp_ok (Call.exec_spec hcodec ih hc) hrun :)
  | err _ hc hrun ih =>
    exact (wp_err (Call.exec_spec hcodec ih hc) hrun :)

/-! The account that compressed swap keeps, exact after every run, and the pages it gives back. -/
/-- The account that the manager keeps of the pages stored, and what clients get back. -/
structure Session.Exact (codec : Lz4) (σ : Session) : Prop where
  /-- Free and occupied slots are exactly the table, which keeps its bound. -/
  free_nodup : σ.manager.freeSlots.Nodup
  free_iff : ∀ i, i ∈ σ.manager.freeSlots ↔
    i < σ.manager.compressed.length ∧ σ.payload i = none
  occupied_iff : ∀ i, (σ.payload i).isSome ↔ ∃ p, (.compressed i, p) ∈ σ.live
  slots_le : σ.manager.compressed.length ≤ σ.manager.maximumSlots
  bytes : σ.manager.compressedBytes =
    ((List.range σ.manager.compressed.length).map fun i => (σ.payload i).elim 0 List.length).sum
  bytes_le : σ.manager.compressedBytes ≤ σ.manager.maximumCompressedBytes
  pages : σ.manager.compressedPages =
    (List.range σ.manager.compressed.length).countP fun i => (σ.payload i).isSome
  residentPages : σ.manager.residentPages =
    (List.range σ.manager.compressed.length).countP fun i => (σ.payload i).isSome && σ.resident i
  residentBytes : σ.manager.residentBytes =
    ((List.range σ.manager.compressed.length).map fun i =>
      if σ.resident i then (σ.payload i).elim 0 List.length else 0).sum
  isFull : ∃ full, SwapM.isFull σ.manager = .ok full σ.manager
  /-- A load returns the page stored, unless another load has its payload. -/
  load : ∀ handle p, (handle, p) ∈ σ.live → (∀ loan ∈ σ.loans, handle ≠ .compressed loan.slot) →
    ∀ buffer external, buffer.length = pageSize →
      ∃ m, SwapM.load codec handle buffer external σ.manager = .ok p.bytes m
  loadFinish : ∀ loan ∈ σ.loans, ∀ p, (.compressed loan.slot, p) ∈ σ.live →
    ∀ buffer, buffer.length = pageSize →
      ∃ m, SwapM.loadFinish codec loan.slot loan.data loan.checksum buffer σ.manager = .ok p.bytes m
  /-- The slot of a handle in use is not handed out again. -/
  store : ∀ page answers i m, SwapM.store codec page answers σ.manager = .ok (.compressed i) m →
    ∀ p, (.compressed i, p) ∉ σ.live

section Exact
variable {table : List (Option Cell)}

section
variable (hinv : σ.manager.Inv codec table)
include hinv

theorem Session.payload_eq (hlent : Lent σ.loans table) (i : ℕ) :
    σ.payload i = table[i]?.join.map Cell.payload := by
  unfold Session.payload
  rw [hinv.getElem? i]
  cases hi : table[i]? with
  | none => rfl
  | some o =>
    have hfind : ∀ loan, σ.loans.find? (·.slot = i) = some loan →
        ∃ c, o = some c ∧ c.loaned = true ∧ loan.data = c.payload := by
      intro loan hl
      obtain ⟨c, hc, hout, hdata, -⟩ := (hlent.cells loan).mp (mem_of_find?_eq_some hl)
      have hslot : loan.slot = i := by simpa using find?_some hl
      rw [hslot, hi] at hc
      exact ⟨c, Option.some.inj hc, hout, hdata⟩
    cases o with
    | none =>
      cases hl : σ.loans.find? (·.slot = i) with
      | none => rfl
      | some loan =>
        obtain ⟨c, hc, -⟩ := hfind loan hl
        cases hc
    | some c =>
      cases hloan : c.loaned with
      | false => simp [slotView, Cell.slot, hloan]
      | true =>
        have hmem := (hlent.cells (Cell.loan c i)).mpr ⟨c, hi, hloan, rfl, rfl⟩
        cases hl : σ.loans.find? (·.slot = i) with
        | none =>
          have := find?_eq_none.mp hl _ hmem
          simp [Cell.loan] at this
        | some loan =>
          obtain ⟨d, hd, -, hdata⟩ := hfind loan hl
          obtain rfl := Option.some.inj hd
          simp [slotView, Cell.slot, hloan, hdata]

theorem Session.resident_eq (i : ℕ) : σ.resident i = (table[i]?.join.elim false Cell.resident) := by
  unfold Session.resident
  rw [hinv.getElem? i]
  cases table[i]? with
  | none => rfl
  | some o => cases o <;> rfl

theorem Session.sum_eq {f : Cell → ℕ} {g : ℕ → ℕ} (hg : ∀ i, (table[i]?.join).elim 0 f = g i) :
    total f table = ((List.range σ.manager.compressed.length).map g).sum := by
  rw [total_eq_range, hinv.slots, length_map]
  congr 1
  exact map_congr_left fun i _ => hg i

end

theorem Session.Good.exact (hcodec : codec.Inverts) (h : σ.Good codec) : σ.Exact codec := by
  obtain ⟨table, hinv, hholds, hlent⟩ := h
  have hlen : σ.manager.compressed.length = table.length := by rw [hinv.slots, length_map]
  have hpayload := Session.payload_eq hinv hlent
  have hresident := Session.resident_eq hinv
  constructor
  · exact hinv.recycled.nodup
  · intro i
    rw [hinv.recycled.mem_iff i, hpayload i, hlen]
    by_cases hi : i < table.length
    · cases table[i] <;> simp [hi]
    · simp [hi]
  · intro i
    rw [hpayload i]
    simp only [hholds.slots]
    cases hi : table[i]? with
    | none => simp
    | some o => cases o <;> simp
  · rw [hlen]
    exact hinv.slots_le
  · rw [hinv.bytes]
    refine Session.sum_eq hinv fun i => ?_
    rw [hpayload i]
    cases table[i]?.join <;> rfl
  · exact hinv.bytes_le
  · rw [hinv.pages, countP_range_eq_sum]
    refine Session.sum_eq hinv fun i => ?_
    rw [hpayload i]
    cases table[i]?.join <;> rfl
  · rw [hinv.residentPages, countP_range_eq_sum]
    refine Session.sum_eq hinv fun i => ?_
    rw [hpayload i, hresident i]
    cases table[i]?.join with
    | none => rfl
    | some c => cases hr : c.resident <;> simp [Cell.residentPages]
  · rw [hinv.residentBytes]
    refine Session.sum_eq hinv fun i => ?_
    rw [hpayload i, hresident i]
    cases table[i]?.join with
    | none => rfl
    | some c => cases hr : c.resident <;> simp [Cell.residentBytes, hr]
  · obtain ⟨full, m, hrun, rfl⟩ := wp_returns (isFull_spec hinv)
    exact ⟨full, hrun⟩
  · intro handle p hlive hin buffer external hbuffer
    cases handle with
    | external slot => exact (hholds.external slot p hlive).elim
    | fill word =>
      obtain ⟨hfill, rfl⟩ := hholds.fills word p hlive
      rw [← hfill.fillBytes_eq hbuffer]
      exact ⟨_, rfl⟩
    | compressed i =>
      obtain ⟨c, hi, rfl⟩ := (hholds.slots i p).mp hlive
      obtain ⟨bytes, m, hrun, rfl, -⟩ :=
        wp_returns (load_spec hinv hi hcodec (hlent.in_place hi hin) hbuffer external)
      exact ⟨m, hrun⟩
  · intro loan hloan p hlive buffer hbuffer
    obtain ⟨c, hi, hout, hdata, hsum⟩ := (hlent.cells loan).mp hloan
    obtain ⟨d, hd, rfl⟩ := (hholds.slots loan.slot p).mp hlive
    obtain rfl : c = d := by simpa [hi] using hd
    rw [hdata, hsum]
    obtain ⟨bytes, m, hrun, rfl, -⟩ := wp_returns (loadFinish_spec hinv hi hcodec hout hbuffer)
    exact ⟨m, hrun⟩
  · intro page answers i m hrun p hp
    obtain ⟨c, hi, -⟩ := (hholds.slots i p).mp hp
    have hstore := wp_ok (store_spec (T := fun _ => False) hinv page answers) hrun
    obtain ⟨payload, table', hs, -⟩ := hstore
    have := hs.vacant
    rw [hi] at this
    cases this

end Exact

/-- In every run the account of the manager is exact and every load returns the page that was stored;
the only stop is a residency change of a page that is being loaded. -/
theorem swap_exact (hcodec : codec.Inverts) (h : Reachable codec σ) :
    σ.Exact codec ∧ ∀ c : Call, c.Allowed σ → ∀ p, c.exec codec σ σ.manager = .panic p →
      c.MayStop σ p := by
  have hgood := h.good hcodec
  refine ⟨hgood.exact hcodec, fun c hc p hrun => ?_⟩
  exact (wp_panic (Call.exec_spec hcodec hgood hc) hrun :)

section Example

def examplePage : Page := ⟨1 :: List.replicate 4095 0, by rw [List.length_cons, List.length_replicate]; rfl⟩

def exampleBlock : List UInt8 :=
  [0x2f, 1, 0, 1, 0] ++ List.replicate 15 255 ++ [245, 0x50, 0, 0, 0, 0, 0]

def exampleCodec : Lz4 where
  compressInto bytes := some (if bytes = examplePage.bytes then exampleBlock
    else 0xf0 :: (List.replicate 16 255 ++ 1 :: bytes))
  decompressInto payload _ :=
    if payload = exampleBlock then (examplePage.bytes, some pageSize)
    else (payload.drop 18, some (payload.length - 18))

theorem exampleCodec_inverts : exampleCodec.Inverts := by
  intro p payload buffer hp _
  obtain rfl := Option.some.inj hp
  unfold exampleCodec
  by_cases hpage : p.bytes = examplePage.bytes
  · simp [hpage]
  · have hne : 0xf0 :: (replicate 16 255 ++ 1 :: p.bytes) ≠ exampleBlock := by
      intro heq
      have := (cons.inj heq).1
      revert this
      decide
    simp only [if_neg hpage, if_neg hne]
    simp [p.length_eq]

theorem examplePage_not_fill : ¬examplePage.IsFill := by
  intro h
  have hzero := h [0, 0, 0, 0, 0, 0, 0, 0] (by
    exact mem_cons_of_mem _ mem_cons_self)
  revert hzero
  decide

theorem reachable_stored {page : Page} {payload : List UInt8} (hfill : ¬page.IsFill)
    (hpayload : codec.compressInto page.bytes = some payload) (hlen : payload.length = 27) :
    Reachable codec ⟨{ SwapManager.init 4096 64 with
      compressed := [⟨some payload, pageChecksum page.bytes, false⟩]
      freeCapacity := 1, compressedBytes := 27, compressedPages := 1, pageouts := 1 },
      [(.compressed 0, page)], []⟩ := by
  apply Reachable.ok (c := .store page ⟨true, true, true, true, true, .error .io⟩) (.init 4096 64)
  · trivial
  · simp only [Call.exec, SwapM.store, if_neg hfill, hpayload, SwapM.storeCompressed, hlen]
    rfl

end Example

theorem swap_exact_example : ∃ σ : Session, Reachable exampleCodec σ ∧
    σ.live = [(.compressed 0, examplePage)] ∧ σ.manager.compressedBytes = 27 ∧
    ∃ m, SwapM.load exampleCodec (.compressed 0) (List.replicate pageSize 0) (.error .io)
      σ.manager = .ok examplePage.bytes m := by
  have hpayload : exampleCodec.compressInto examplePage.bytes = some exampleBlock := by
    simp [exampleCodec]
  have h := reachable_stored examplePage_not_fill hpayload (by decide)
  refine ⟨_, h, rfl, rfl, ?_⟩
  exact (swap_exact exampleCodec_inverts h).1.load _ _ (by simp) (by simp) _ _ (by simp)

end SwapM
end Roanix.Mem
