import Roanix.Lib.Machine
import Roanix.Mem.Policy.Basic

/-! The lists of the clock against the bits of the pages and the markers of the scans, over every
interleaving. -/
namespace Roanix.Mem.Policy
open Lib Function

variable {π ι : Type} [DecidableEq π] [DecidableEq ι]

/-- A list has the pages whose bit is set, and the markers of the scans of the list, once each. -/
structure ListOk (l : List (Entry π ι)) (n : ℕ) (bit : π → Bool) (mark : ι → Bool) : Prop where
  page : ∀ p, l.count (.page p) = (bit p).toNat
  marker : ∀ t, l.count (.marker t) = (mark t).toNat
  size : n = l.countP Entry.isPage

section ListOk
variable {l l' : List (Entry π ι)} {n : ℕ} {bit bit' : π → Bool} {mark mark' : ι → Bool} {p : π} {t : ι}

section
variable (h : ListOk l n bit mark)
include h

theorem ListOk.congr (hb : ∀ p, bit' p = bit p)
    (hm : ∀ t, mark' t = mark t) : ListOk l n bit' mark' :=
  ⟨fun p => by rw [hb, h.page], fun t => by rw [hm, h.marker], h.size⟩

theorem ListOk.perm (hl : l'.Perm l) : ListOk l' n bit mark :=
  ⟨fun p => by rw [hl.count_eq, h.page], fun t => by rw [hl.count_eq, h.marker],
    by rw [hl.countP_eq, h.size]⟩

theorem ListOk.erase_page (hp : bit p = true) (hp' : bit' p = false)
    (hb : ∀ q, q ≠ p → bit' q = bit q) : ListOk (l.erase (.page p)) (n - 1) bit' mark where
  page q := by
    have hq := h.page q
    rw [List.count_erase]
    obtain rfl | hne := eq_or_ne q p
    · rw [hp] at hq
      simp [hp', hq]
    · simp [hb q hne, hq, Ne.symm hne]
  marker t := by simp [h.marker t]
  size := by
    have hmem : Entry.page p ∈ l := by
      rw [← List.count_pos_iff, h.page p, hp]
      exact Nat.one_pos
    rw [List.countP_erase, h.size]
    simp [hmem, Entry.isPage]

theorem ListOk.push_page (hp : bit p = false) (hp' : bit' p = true)
    (hb : ∀ q, q ≠ p → bit' q = bit q) : ListOk (l ++ [.page p]) (n + 1) bit' mark where
  page q := by
    have hq := h.page q
    obtain rfl | hne := eq_or_ne q p
    · rw [hp] at hq
      simp [hp', hq]
    · simp [hb q hne, hq, Ne.symm hne]
  marker t := by simp [h.marker t]
  size := by simp [h.size, Entry.isPage]

theorem ListOk.push_marker (ht : mark t = false) (ht' : mark' t = true)
    (hm : ∀ u, u ≠ t → mark' u = mark u) : ListOk (.marker t :: l) n bit mark' where
  page q := by simp [h.page q]
  marker u := by
    have hu := h.marker u
    obtain rfl | hne := eq_or_ne u t
    · rw [ht] at hu
      simp [ht', hu]
    · simp [hm u hne, hu, Ne.symm hne]
  size := by simp [h.size, Entry.isPage]

theorem ListOk.erase_marker (ht : mark t = true) (ht' : mark' t = false)
    (hm : ∀ u, u ≠ t → mark' u = mark u) : ListOk (l.erase (.marker t)) n bit mark' where
  page q := by simp [h.page q]
  marker u := by
    have hu := h.marker u
    rw [List.count_erase]
    obtain rfl | hne := eq_or_ne u t
    · rw [ht] at hu
      simp [ht', hu]
    · simp [hm u hne, hu, Ne.symm hne]
  size := by simp [List.countP_erase, Entry.isPage, h.size]

theorem ListOk.marker_mem (ht : mark t = true) : Entry.marker t ∈ l := by
  rw [← List.count_pos_iff, h.marker t, ht]
  exact Nat.one_pos

end

omit [DecidableEq π] [DecidableEq ι] in
theorem pass_perm (t : ι) (l : List (Entry π ι)) : (pass t l).1.Perm (.marker t :: l) := by
  induction l with
  | nil => exact .refl _
  | cons e rest ih =>
    cases e with
    | page p => exact .swap _ _ _
    | marker u => exact (ih.cons _).trans (.swap _ _ _)

omit [DecidableEq π] in
theorem next_perm (h : Entry.marker t ∈ l) : (next t l).1.Perm l := by
  induction l with
  | nil => cases h
  | cons e rest ih =>
    cases e with
    | page p => exact (ih (by simpa using h)).cons _
    | marker u =>
      simp only [next]
      split_ifs with hu
      · rw [hu]
        exact pass_perm t rest
      · refine (ih ?_).cons _
        exact (List.mem_cons.mp h).resolve_left fun he => hu (Entry.marker.inj he).symm

end ListOk

structure ClockOk (c : Clock π ι) (flags : π → Flags) (marker : ι → Option Bool) : Prop where
  active : ListOk c.active c.nactive (fun p => (flags p).active) (fun t => marker t = some true)
  inactive : ListOk c.inactive c.ninactive (fun p => (flags p).inactive)
    (fun t => marker t = some false)
  one : ∀ p, (flags p).inactive = true → (flags p).active = false

section ClockOk
variable {c : Clock π ι} {flags : π → Flags} {marker : ι → Option Bool} {p : π} {t : ι} {f : Flags}
  {active : Bool}

theorem ListOk.set_other {l : List (Entry π ι)} {n : ℕ} {bit : π → Bool} {m : Option Bool}
    (hl : ListOk l n bit fun t => marker t = some active) (ht : marker t ≠ some active)
    (hm : m ≠ some active) : ListOk l n bit fun u => update marker t m u = some active :=
  hl.congr (fun _ => rfl) (update_congr (fun m => decide (m = some active)) (by simp [ht, hm]))

section
variable (h : ClockOk c flags marker)
include h

theorem ClockOk.one_update (hf : f.inactive = true → f.active = false) (q : π) :
    (update flags p f q).inactive = true → (update flags p f q).active = false :=
  update_all (fun f : Flags => f.inactive = true → f.active = false) hf h.one q

theorem ClockOk.setFlags (ha : f.active = (flags p).active)
    (hi : f.inactive = (flags p).inactive) : ClockOk c (update flags p f) marker where
  active := h.active.congr (update_congr Flags.active ha) fun _ => rfl
  inactive := h.inactive.congr (update_congr Flags.inactive hi) fun _ => rfl
  one := h.one_update (by rw [ha, hi]; exact h.one p)

theorem ClockOk.remove (ha : f.active = false) (hi : f.inactive = false) :
    ClockOk (c.remove p (flags p)) (update flags p f) marker := by
  have hone : ∀ q, _ := h.one_update (p := p) (f := f) fun _ => ha
  unfold Clock.remove
  split_ifs with hpa hpi
  · have hpi : (flags p).inactive = false := by
      by_contra hpi
      rw [h.one p (by simpa using hpi)] at hpa
      cases hpa
    exact ⟨h.active.erase_page hpa (by simp [ha]) fun q hq => by rw [update_of_ne hq],
      h.inactive.congr (update_congr Flags.inactive (hi.trans hpi.symm)) fun _ => rfl, hone⟩
  · have hpa : (flags p).active = false := by simpa using hpa
    exact ⟨h.active.congr (update_congr Flags.active (ha.trans hpa.symm)) fun _ => rfl,
      h.inactive.erase_page hpi (by simp [hi]) fun q hq => by rw [update_of_ne hq], hone⟩
  · exact h.setFlags (by simpa [ha] using hpa) (by simpa [hi] using hpi)

theorem ClockOk.push_active (hp : (flags p).active = false)
    (ha : f.active = true) (hi : f.inactive = false) (hpi : (flags p).inactive = false) :
    ClockOk { c with active := c.active ++ [.page p], nactive := c.nactive + 1 }
      (update flags p f) marker where
  active := h.active.push_page hp (by simp [ha]) fun q hq => by rw [update_of_ne hq]
  inactive := h.inactive.congr (update_congr Flags.inactive (hi.trans hpi.symm)) fun _ => rfl
  one := h.one_update fun hf => by rw [hi] at hf; cases hf

theorem ClockOk.push_inactive (hp : (flags p).inactive = false)
    (hi : f.inactive = true) (ha : f.active = false) (hpa : (flags p).active = false) :
    ClockOk { c with inactive := c.inactive ++ [.page p], ninactive := c.ninactive + 1 }
      (update flags p f) marker where
  inactive := h.inactive.push_page hp (by simp [hi]) fun q hq => by rw [update_of_ne hq]
  active := h.active.congr (update_congr Flags.active (ha.trans hpa.symm)) fun _ => rfl
  one := h.one_update fun _ => ha

theorem ClockOk.realize (p : π) :
    ClockOk (c.realize p (flags p)).1 (update flags p (c.realize p (flags p)).2.1)
      marker := by
  unfold Clock.realize
  split_ifs with hset hkeep
  · exact h.setFlags rfl rfl
  · exact h.setFlags rfl rfl
  · -- the page is taken out and, unless it is dequeued, linked again
    have hbare := h.remove (p := p) (f := ⟨.dequeue, false, (flags p).queued, false, false⟩) rfl rfl
    have hactive : ∀ intent, ClockOk
        { c.remove p (flags p) with
          active := (c.remove p (flags p)).active ++ [.page p]
          nactive := (c.remove p (flags p)).nactive + 1 }
        (update flags p ⟨intent, false, (flags p).queued, true, false⟩) marker := by
      intro intent
      have hpush := hbare.push_active (p := p)
        (f := ⟨intent, false, (flags p).queued, true, false⟩) (by simp) rfl rfl (by simp)
      rwa [update_idem] at hpush
    cases hintent : (flags p).intent with
    | dequeue => exact hbare
    | deactivate =>
      have hpush := hbare.push_inactive (p := p)
        (f := ⟨.deactivate, false, (flags p).queued, false, true⟩) (by simp) rfl rfl (by simp)
      rwa [update_idem] at hpush
    | activate | enqueue => exact hactive _

theorem ClockOk.advance (hm : marker t = some active) :
    ClockOk (c.setList active (next t (c.list active)).1) flags marker := by
  cases active with
  | true => exact ⟨h.active.perm (next_perm (h.active.marker_mem (by simp [hm]))), h.inactive, h.one⟩
  | false => exact ⟨h.active, h.inactive.perm (next_perm (h.inactive.marker_mem (by simp [hm]))), h.one⟩

theorem ClockOk.mark (hm : marker t = none) (active : Bool) :
    ClockOk (c.setList active (.marker t :: c.list active)) flags
      (update marker t (some active)) := by
  cases active with
  | true =>
    exact ⟨h.active.push_marker (by simp [hm]) (by simp) fun u hu => by simp [hu],
      h.inactive.set_other (by simp [hm]) (by simp), h.one⟩
  | false =>
    exact ⟨h.active.set_other (by simp [hm]) (by simp),
      h.inactive.push_marker (by simp [hm]) (by simp) fun u hu => by simp [hu], h.one⟩

theorem ClockOk.unmark (hm : marker t = some active) :
    ClockOk (c.setList active ((c.list active).erase (.marker t))) flags
      (update marker t none) := by
  cases active with
  | true =>
    exact ⟨h.active.erase_marker (by simp [hm]) (by simp) fun u hu => by simp [hu],
      h.inactive.set_other (by simp [hm]) (by simp), h.one⟩
  | false =>
    exact ⟨h.active.set_other (by simp [hm]) (by simp),
      h.inactive.erase_marker (by simp [hm]) (by simp) fun u hu => by simp [hu], h.one⟩

end

end ClockOk

open State

/-- A thread that has set `INTENT_QUEUED` on a page and has not queued the page yet. -/
def Place.Pushes {κ π : Type} (p : π) : Place κ π → Prop
  | push q | pushSlow q | drain _ (some q) => q = p
  | _ => False

instance {κ π : Type} [DecidableEq π] (p : π) : (place : Place κ π) → Decidable (place.Pushes p)
  | .push q | .pushSlow q | .drain _ (some q) => inferInstanceAs (Decidable (q = p))
  | .idle | .drain _ none | .candidate _ | .chosen _ => inferInstanceAs (Decidable False)

section Inv
variable {κ π ι : Type} [Fintype κ] [Fintype ι] [DecidableEq π] [DecidableEq ι]

def State.slots (s : State κ π ι) (p : π) : ℕ := ∑ cpu, (s.pending cpu).count p

def State.pushers (s : State κ π ι) (p : π) : ℕ := count (Place.Pushes p) s.party

structure Inv (s : State κ π ι) : Prop where
  clock : ClockOk s.clock s.flags s.marker
  queued : ∀ p, s.slots p + s.pushers p = (s.flags p).queued.toNat
  last : ∀ p, (s.flags p).queue = (s.last p).elim .none Intent.queue
  length : ∀ cpu, (s.pending cpu).length ≤ QUEUE_SIZE

theorem inv_new : Inv (.new : State κ π ι) where
  clock := ⟨⟨fun _ => rfl, fun _ => rfl, rfl⟩, ⟨fun _ => rfl, fun _ => rfl, rfl⟩, fun _ _ => rfl⟩
  queued p := by
    have hslots : (new : State κ π ι).slots p = 0 := by simp [slots, new]
    have hpushers : (new : State κ π ι).pushers p = 0 := count_eq_zero.mpr fun _ h => h
    rw [hslots, hpushers]
    rfl
  last _ := rfl
  length _ := Nat.zero_le _

end Inv

section Count
variable {κ π ι : Type} [DecidableEq π]

theorem slots_setPending [Fintype κ] [DecidableEq κ] (s : State κ π ι) (cpu : κ) (l : List π) (p : π) :
    (s.setPending cpu l).slots p + (s.pending cpu).count p = s.slots p + l.count p :=
  spread_update s.pending cpu l p

theorem pushers_goto [Fintype ι] [DecidableEq ι] (s : State κ π ι) (t : ι) (place : Place κ π)
    (p : π) :
    (s.goto t place).pushers p + (if (s.party t).Pushes p then 1 else 0) =
      s.pushers p + if place.Pushes p then 1 else 0 :=
  count_update s.party t place

end Count

section Flags
variable {κ π ι : Type} [Fintype κ] [Fintype ι] [DecidableEq π] [DecidableEq ι]
  {s : State κ π ι} {t : ι} {p : π} {place : Place κ π}

theorem Inv.goto (h : Inv s) (hp : ∀ p, place.Pushes p ↔ (s.party t).Pushes p) :
    Inv (s.goto t place) where
  clock := h.clock
  queued p := by
    refine Eq.trans ?_ (h.queued p)
    have hgoto := pushers_goto s t place p
    simp only [hp] at hgoto
    exact congrArg (s.slots p + ·) (Nat.add_right_cancel hgoto)
  last := h.last
  length := h.length

omit [Fintype κ] [Fintype ι] in
theorem realize_queue (h : ClockOk s.clock s.flags s.marker) (p : π) :
    (s.clock.realize p (s.flags p)).2.1.queue = (s.flags p).queue ∧
      (s.clock.realize p (s.flags p)).2.1.queued = (s.flags p).queued := by
  unfold Clock.realize
  split_ifs with hset hkeep
  · exact ⟨rfl, rfl⟩
  · have hactive := h.one p hkeep.2
    simp_all [Flags.queue, Intent.queue]
  · cases hintent : (s.flags p).intent <;> simp_all [Flags.queue, Intent.queue]

theorem Inv.realize (h : Inv s) (p : π) : Inv (s.realize p) where
  clock := h.clock.realize p
  queued q := (h.queued q).trans
    (congrArg Bool.toNat (update_congr Flags.queued (realize_queue h.clock p).2 q).symm)
  last q := (update_congr Flags.queue (realize_queue h.clock p).1 q).trans (h.last q)
  length := h.length

theorem Inv.impose (h : Inv s) (p : π) (intent : Intent) : Inv (s.impose p intent) := by
  have hflags : Inv { s with
      flags := update s.flags p ((s.flags p).impose intent)
      last := update s.last p (some intent) } := by
    refine ⟨h.clock.setFlags rfl rfl, ?_, ?_, h.length⟩
    · intro q
      exact (h.queued q).trans (congrArg Bool.toNat (update_congr Flags.queued (by rfl) q).symm)
    · intro q
      obtain rfl | hne := eq_or_ne q p
      · simp [Flags.impose, Flags.queue]
      · simpa [hne] using h.last q
  exact hflags.realize p

theorem Inv.intend (h : Inv s) (ht : s.party t = .idle) (p : π) (intent : Intent) :
    Inv (s.intend t p intent) where
  clock := h.clock.setFlags rfl rfl
  queued q := by
    have hgoto := pushers_goto s t (if (s.flags p).queued then .idle else .push p) q
    have hqueued := h.queued q
    change s.slots q + (s.goto t _).pushers q =
      (update s.flags p ((s.flags p).setIntent intent) q).queued.toNat
    obtain rfl | hne := eq_or_ne q p
    · cases hq : (s.flags q).queued <;> simp_all [Flags.setIntent, Place.Pushes]
    · cases hq : (s.flags p).queued <;> simp_all [Place.Pushes, Ne.symm hne]
  last q := by
    obtain rfl | hne := eq_or_ne q p
    · simp [State.intend, State.goto, Flags.setIntent, Flags.queue]
    · simpa [State.intend, State.goto, hne] using h.last q
  length := h.length

theorem Inv.advance {active : Bool} (h : Inv s) (hm : s.marker t = some active) :
    Inv (s.advance t active) := { h with clock := h.clock.advance hm }

end Flags

section Steps
variable {κ π ι : Type} [Fintype κ] [Fintype ι] [DecidableEq κ] [DecidableEq π] [DecidableEq ι]
  {s s' : State κ π ι} {t : ι} {p : π} {cpu : κ} {rest : List π}

theorem Inv.push {place : Place κ π} (h : Inv s) (ht : s.party t = place)
    (hp : ∀ q, place.Pushes q ↔ p = q) (hlen : (s.pending cpu).length < QUEUE_SIZE) :
    Inv ((s.setPending cpu (p :: s.pending cpu)).goto t .idle) where
  clock := h.clock
  queued q := by
    refine Eq.trans ?_ (h.queued q)
    have hgoto := pushers_goto s t .idle q
    have hslots := slots_setPending s cpu (p :: s.pending cpu) q
    rw [if_neg (fun hq : (Place.idle : Place κ π).Pushes q => hq)] at hgoto
    simp only [ht, hp, List.count_cons, beq_iff_eq] at hgoto hslots
    change (s.setPending cpu _).slots q + (s.goto t _).pushers q = _
    omega
  last := h.last
  length := update_all (fun l : List π => l.length ≤ QUEUE_SIZE) (Nat.succ_le_of_lt hlen) h.length

theorem Inv.consume (h : Inv s) (hc : s.pending cpu = p :: rest) : Inv (s.consume cpu p rest) := by
  have htaken : Inv { s with
      pending := update s.pending cpu rest
      flags := update s.flags p { s.flags p with queued := false } } := by
    refine ⟨h.clock.setFlags rfl rfl, ?_, ?_, ?_⟩
    · intro q
      have hslots := slots_setPending s cpu rest q
      have hqueued := h.queued q
      rw [hc, List.count_cons] at hslots
      change (s.setPending cpu rest).slots q + s.pushers q =
        (update s.flags p _ q).queued.toNat
      obtain rfl | hne := eq_or_ne q p
      · have hle := Bool.toNat_le (s.flags q).queued
        simp only [BEq.rfl, if_true] at hslots
        rw [update_self]
        change _ = 0
        omega
      · rw [update_of_ne hne]
        simp only [beq_iff_eq, Ne.symm hne, if_false] at hslots
        omega
    · intro q
      exact (update_congr Flags.queue (by rfl) q).trans (h.last q)
    · have hlen := h.length cpu
      rw [hc] at hlen
      exact update_all (fun l : List π => l.length ≤ QUEUE_SIZE) ((Nat.le_succ _).trans hlen) h.length
  exact htaken.realize p

theorem Inv.step (h : Inv s) (hstep : Step t s s') : Inv s' := by
  cases hstep with
  | intend p intent ht => exact h.intend ht p intent
  | wireFirst p ht =>
    exact Inv.intend (s := { s with wires := update s.wires p 1 })
      { h with } ht p _
  | unwireLast p ht =>
    exact Inv.intend (s := { s with wires := update s.wires p 0 })
      { h with } ht p _
  | wire | unwire => exact { h with }
  | push cpu ht hl hlen => exact h.push ht (fun _ => Iff.rfl) hlen
  | pushFull cpu ht | recheck ht | recheckFails ht | leave ht =>
    exact h.goto fun q => by rw [ht]; exact Iff.rfl
  | pushSlow cpu ht | flush cpu ht =>
    exact Inv.goto { h with }
      fun q => by rw [lock, ht]; exact Iff.rfl
  | drain ht hc => exact h.consume hc
  | @drained cpu ht =>
    exact Inv.goto { h with }
      fun q => by rw [lock, ht]; exact Iff.rfl
  | @drainedPush cpu p ht hc =>
    have hroom : (s.pending cpu).length < QUEUE_SIZE := by
      rw [hc]
      exact Nat.zero_lt_succ _
    have hpush := h.push ht (fun _ => Iff.rfl) hroom
    rw [hc] at hpush
    exact { hpush with }
  | mark active ht hm => exact { h with clock := h.clock.mark hm active }
  | scanRealize ht hm => exact (h.advance hm).realize _
  | scanCandidate ht hm =>
    exact (h.advance hm).goto fun q => by rw [State.advance, ht]; exact Iff.rfl
  | scanProtect ht hm => exact (h.advance hm).impose _ _
  | scanEnd ht hm => exact h.advance hm
  | @recheckRealize p ht =>
    exact (h.realize p).goto fun q => by rw [State.realize, ht]; exact Iff.rfl
  | @deactivate p ht =>
    exact (h.impose p .deactivate).goto fun q => by
      rw [State.impose, State.realize, ht]
      exact Iff.rfl
  | unmark ht hm => exact { h with clock := h.clock.unmark hm }

end Steps

section Correct
variable {κ π ι : Type} [Fintype κ] [Fintype ι] [DecidableEq π] [DecidableEq ι]

structure Correct (s : State κ π ι) : Prop where
  /-- `INTENT_QUEUED` is set while one slot has the page, or one thread is about to queue it. -/
  queued : ∀ p, (s.flags p).queued = true ↔
    s.slots p = 1 ∧ s.pushers p = 0 ∨ s.slots p = 0 ∧ s.pushers p = 1
  atMostOnce : ∀ p, s.slots p + s.pushers p ≤ 1
  active : ∀ p, s.clock.active.count (.page p) = (s.flags p).active.toNat
  inactive : ∀ p, s.clock.inactive.count (.page p) = (s.flags p).inactive.toNat
  oneList : ∀ p, ¬ ((s.flags p).active = true ∧ (s.flags p).inactive = true)
  nactive : s.clock.nactive = s.clock.active.countP Entry.isPage
  ninactive : s.clock.ninactive = s.clock.inactive.countP Entry.isPage
  last : ∀ p, (s.flags p).queue = (s.last p).elim .none Intent.queue

theorem correct_of_inv {s : State κ π ι} (h : Inv s) : Correct s where
  queued p := by
    have hq := h.queued p
    cases hf : (s.flags p).queued <;> rw [hf] at hq <;> simp only [Bool.toNat] at hq
    · simp only [Bool.false_eq_true, cond_false, false_iff] at hq ⊢
      omega
    · simp only [cond_true, true_iff] at hq ⊢
      omega
  atMostOnce p := (h.queued p).trans_le (Bool.toNat_le _)
  active := h.clock.active.page
  inactive := h.clock.inactive.page
  oneList p hp := by
    rw [h.clock.one p hp.2] at hp
    cases hp.1
  nactive := h.clock.active.size
  ninactive := h.clock.inactive.size
  last := h.last

end Correct

variable {κ π ι : Type} [Fintype κ] [Fintype ι] [DecidableEq κ] [DecidableEq π] [DecidableEq ι]
  {s : State κ π ι}

theorem inv_of_reachable (h : (machine κ π ι).Reachable s) : Inv s := by
  refine h.invariant ?_ ?_
  · rintro _ rfl
    exact inv_new
  · rintro s s' hinv ⟨t, hstep⟩
    exact hinv.step hstep

/-- In every reachable state a page is queued once, linked where its bits say and where its last
intent wants it. -/
theorem queues_follow_intents (h : (machine κ π ι).Reachable s) : Correct s :=
  correct_of_inv (inv_of_reachable h)

theorem queues_follow_intents_example :
    ∃ s : State (Fin 1) (Fin 1) (Fin 1), (machine (Fin 1) (Fin 1) (Fin 1)).Reachable s ∧
      s.clock.inactive = [.page 0] ∧ s.last 0 = some .deactivate ∧ Correct s := by
  have h : (machine (Fin 1) (Fin 1) (Fin 1)).Reachable .new := .init rfl
  have h := h.step ⟨0, .intend 0 .activate rfl⟩
  have h := h.step ⟨0, .push 0 rfl rfl (by decide)⟩
  have h := h.step ⟨0, .intend 0 .deactivate rfl⟩
  have h := h.step ⟨0, .flush 0 rfl rfl rfl⟩
  have h := h.step ⟨0, .drain rfl rfl⟩
  exact ⟨_, h, by decide, rfl, queues_follow_intents h⟩

end Roanix.Mem.Policy
