import Roanix.Sys.Klog.Invariant

/-! The log ring under any interleaving: what holds when no thread is overtaken by a lap, and what
happens when one is. -/
namespace Roanix.Sys.Klog
open Function State List
open Lib (Machine)
variable {ι : Type} [DecidableEq ι] {ok : State ι → Prop} {s : State ι} {t : ι}

theorem State.move_of_eq {p : Place} (h : s.party t = p) : s.move t p = s := by
  simp only [move, ← h, update_eq_self]

@[simp] theorem State.party_move (s : State ι) (t : ι) (p : Place) : (s.move t p).party t = p :=
  update_self _ _ _

/-- All stores of a record, one after the other. -/
def Ring.setCells (r : Ring) (q : ℕ) (todo : List (Cell × ℕ)) : Ring :=
  todo.foldl (fun r w => r.setCell q w.1 w.2) r

/-- `append` without interruption. -/
def Ring.append (r : Ring) (record : RecordData) : Ring :=
  (((r.claim record).reserve r.next).setCells r.next (writes record r.next)).publish r.next

section
variable (h : (machine ι ok).Reachable s)
include h

theorem reachable_setCells {q : ℕ} {record : RecordData} {todo : List (Cell × ℕ)}
    (hp : s.party t = .write q record todo) :
    (machine ι ok).Reachable
      ({ s with ring := s.ring.setCells q todo }.move t (.write q record [])) := by
  induction todo generalizing s with
  | nil => rwa [show ({ s with ring := s.ring.setCells q [] } : State ι) = s from rfl,
      move_of_eq hp]
  | cons w todo ih =>
    have hnext := ih (h.step ⟨t, .write hp⟩) (party_move _ _ _)
    simp only [move, update_idem] at hnext
    exact hnext

theorem reachable_append (hp : s.party t = .idle) (hok : ok s) (record : RecordData) :
    (machine ι ok).Reachable { s with ring := s.ring.append record } := by
  have hclaim := h.step ⟨t, .claim record hp hok⟩
  have hreserve := hclaim.step ⟨t, .reserve (party_move _ _ _)⟩
  have hwritten := reachable_setCells hreserve (party_move _ _ _)
  have hpublish := hwritten.step ⟨t, .publish (party_move _ _ _)⟩
  rw [← move_of_eq hp]
  simp only [move, update_idem] at hpublish
  exact hpublish

theorem reachable_copied {q before : ℕ} {returned : Bool} {todo : List Cell} {copied : Cells}
    (hp : s.party t = .copy q returned before todo copied) :
    (machine ι ok).Reachable (s.move t (.copy q returned before []
      (todo.foldl (fun copied c => update copied c ((s.ring.slot q).cells c)) copied))) := by
  induction todo generalizing s copied with
  | nil => rwa [foldl_nil, move_of_eq hp]
  | cons c todo ih =>
    have hnext := ih (h.step ⟨t, .copy hp⟩) (party_move _ _ _)
    simp only [move, update_idem] at hnext
    exact hnext

end

theorem foldl_update_eq {cells : Cells} (todo : List Cell) (copied : Cells) (c : Cell)
    (h : c ∈ todo ∨ copied c = cells c) :
    todo.foldl (fun copied c => update copied c (cells c)) copied c = cells c := by
  induction todo generalizing copied with
  | nil => simpa using h
  | cons d todo ih =>
    refine ih _ ?_
    by_cases hcd : c = d
    · subst hcd
      exact .inr (update_self _ _ _)
    · refine h.imp (fun hmem => (mem_cons.mp hmem).resolve_left hcd) fun heq => ?_
      exact (update_of_ne hcd _ _).trans heq

theorem reachable_fetch {q : ℕ} (h : (machine ι ok).Reachable s) (hp : s.party t = .idle)
    (hq : q < 2 ^ 64) (hword : (s.ring.slot q).word = q * 2 + 1) :
    (machine ι ok).Reachable { s with
      fetched := s.fetched ++
        [⟨q, q ∈ s.ring.returned, s.ring.next, deliver (s.ring.slot q).cells⟩] } := by
  have hcall := h.step ⟨t, .call q hp hq⟩
  have hload := hcall.step ⟨t, .load (party_move _ _ _)⟩
  have hcopy : (s.move t (.load q (q ∈ s.ring.returned))).load t q (q ∈ s.ring.returned) =
      s.move t (.copy q (q ∈ s.ring.returned) (q * 2 + 1) reads fun _ => 0) := by
    unfold load
    have hword' : ((s.move t (.load q (q ∈ s.ring.returned))).ring.slot q).word = q * 2 + 1 := hword
    simp only [hword']
    rw [if_neg (by omega), if_neg (by omega), if_neg (by omega)]
    simp only [move, update_idem]
  rw [hcopy] at hload
  have hcopied := reachable_copied hload (party_move _ _ _)
  have hvalid := hcopied.step ⟨t, .validate (party_move _ _ _)⟩
  have hdeliver : deliver (reads.foldl
      (fun copied c => update copied c ((s.ring.slot q).cells c)) fun _ => 0) =
      deliver (s.ring.slot q).cells :=
    deliver_congr fun c hc => foldl_update_eq reads _ c (.inl hc)
  simp only [validate, finish, move, update_idem, hword, ne_eq,
    not_true_eq_false] at hvalid
  rw [← hp, update_eq_self] at hvalid
  rw [← hdeliver]
  exact hvalid

theorem Ring.setCells_spec {q : ℕ} (todo : List (Cell × ℕ)) (r : Ring)
    (hnodup : (todo.map (·.1)).Nodup) :
    ((r.setCells q todo).slot q).word = (r.slot q).word ∧
      (∀ w ∈ todo, ((r.setCells q todo).slot q).cells w.1 = w.2) ∧
      (∀ c ∉ todo.map (·.1), ((r.setCells q todo).slot q).cells c = (r.slot q).cells c) := by
  induction todo generalizing r with
  | nil => exact ⟨rfl, nofun, fun _ _ => rfl⟩
  | cons w todo ih =>
    rw [map_cons, nodup_cons] at hnodup
    obtain ⟨hword, hstored, hkept⟩ := ih (r.setCell q w.1 w.2) hnodup.2
    have hslot : (r.setCell q w.1 w.2).slot q =
        ⟨(r.slot q).word, update (r.slot q).cells w.1 w.2⟩ := r.slot_setSlot q _
    rw [hslot] at hword hkept
    refine ⟨hword, fun v hv => ?_, fun c hc => ?_⟩
    · rcases mem_cons.mp hv with rfl | hmem
      · exact (hkept _ hnodup.1).trans (update_self _ _ _)
      · exact hstored v hmem
    · rw [map_cons, mem_cons, not_or] at hc
      exact (hkept c hc.2).trans (update_of_ne hc.1 _ _)

theorem Ring.next_setCells {q : ℕ} (todo : List (Cell × ℕ)) (r : Ring) :
    (r.setCells q todo).next = r.next ∧ (r.setCells q todo).records = r.records := by
  induction todo generalizing r with
  | nil => exact ⟨rfl, rfl⟩
  | cons w todo ih => exact ih _

theorem Ring.next_append (r : Ring) (record : RecordData) :
    (r.append record).next = (r.next + 1) % 2 ^ 64 ∧
      (r.append record).records r.next = some record ∧
      ((r.append record).slot r.next).word = committedWord r.next := by
  have hcells := Ring.next_setCells (q := r.next) (writes record r.next)
    ((r.claim record).reserve r.next)
  refine ⟨hcells.1, ?_, ?_⟩
  · change (((r.claim record).reserve r.next).setCells r.next _).records r.next = some record
    rw [hcells.2]
    exact update_self _ _ _
  · exact congrArg Slot.word (Ring.slot_setSlot _ _ _)

theorem reachable_lap (h : (machine ι fun _ => True).Reachable s) (hp : s.party t = .idle)
    (record : RecordData) (n : ℕ) (hn : s.ring.next + n < 2 ^ 64) :
    ∃ r : Ring, r.next = s.ring.next + n ∧
      (machine ι fun _ => True).Reachable { s with ring := r } := by
  induction n with
  | zero => exact ⟨s.ring, rfl, h⟩
  | succ n ih =>
    obtain ⟨r, hnext, hreach⟩ := ih (by omega)
    refine ⟨r.append record, ?_, reachable_append hreach hp trivial record⟩
    rw [(r.next_append record).1, hnext]
    exact Nat.mod_eq_of_lt (by omega)

def sample (letter : ℕ) : RecordData := ⟨0, 0, 0, 0, 0, 0, [], [], [letter]⟩

/-- A thread claims the first sequence and is delayed while another one appends a whole lap. Then it
stores its record into the slot that shows the sequence 512 as committed, and a fetch of 512 returns
it. -/
theorem fetch_foreign : ∃ s : State Bool, (machine Bool fun _ => True).Reachable s ∧
    s.ring.records 512 = some (sample 98) ∧
    ∃ e ∈ s.fetched, e.sequence = 512 ∧
      e.result = .ready ((sample 97).header 0) (sample 97).payload ∧ ¬ EventOk s.ring e := by
  have h₀ : (machine Bool fun _ => True).Reachable (.new : State Bool) := .init rfl
  have h₁ := h₀.step ⟨false, .claim (sample 97) rfl trivial⟩
  have h₂ := h₁.step ⟨false, .reserve (party_move _ _ _)⟩
  obtain ⟨r, hnext, h₃⟩ := reachable_lap (t := true) h₂ rfl (sample 98) 511 (by decide)
  have hnext' : r.next = 512 := hnext
  have h₄ := reachable_append (t := true) h₃ rfl trivial (sample 98)
  obtain ⟨-, hrecord, hword⟩ := r.next_append (sample 98)
  rw [hnext'] at hrecord hword
  have h₅ := reachable_setCells (t := false) h₄ rfl
  obtain ⟨hkept, hstored, -⟩ := Ring.setCells_spec (writes (sample 97) 0)
    (r.append (sample 98)) (nodup_writes _ _)
  have hrecords := (Ring.next_setCells (q := 0) (writes (sample 97) 0) (r.append (sample 98))).2
  have hfetch := reachable_fetch (t := true) (q := 512) h₅ rfl (by decide) (hkept.trans hword)
  have hdeliver := (show Holds _ (sample 97) 0 from hstored).deliver
  refine ⟨_, hfetch, (congrFun hrecords 512).trans hrecord, _,
    mem_append_right _ mem_cons_self, rfl, hdeliver, fun hok => ?_⟩
  obtain ⟨-, record, -, hheader, -⟩ := hok.1 _ _ hdeliver
  have hsequence : (0 : ℕ) = 512 := congrFun hheader .sequence
  exact absurd hsequence (by decide)

/-- While claims find their slot free, a fetch that returns a record returns all of the record of
its sequence, and one that is called after the append returned gets it until the next lap. -/
theorem ring_records (h : (machine ι Clear).Reachable s) : ∀ e ∈ s.fetched, EventOk s.ring e :=
  (inv_of_reachable h).fetched

theorem ring_records_example : ∃ s : State Bool, (machine Bool Clear).Reachable s ∧
    s.fetched.length = 1 ∧ ∀ e ∈ s.fetched, EventOk s.ring e := by
  have h₀ : (machine Bool Clear).Reachable (.new : State Bool) := .init rfl
  have hclear : Clear (.new : State Bool) := ⟨nofun, by decide⟩
  have h₁ := reachable_append (t := true) h₀ rfl hclear (sample 97)
  have h₂ := reachable_fetch (t := false) h₁ rfl (by decide)
    ((Ring.new.next_append (sample 97)).2.2)
  exact ⟨_, h₂, rfl, ring_records h₂⟩

end Roanix.Sys.Klog
