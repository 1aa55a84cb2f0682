import Roanix.Mem.Vmem.Calls

/-! Arenas over whole runs. A session is an arena with the spans it was given and the reservations
still held for it. -/
namespace Roanix.Mem
open Lib Index Option

namespace Vmem
variable {v : Vmem} {spans : Index ℕ ℕ} {lists : ℕ → List ℕ}

theorem Inv.fresh (h : v.Inv spans lists) {base limit : ℕ}
    (hlast : ∀ e, v.segments.last (· < limit) = some e → e.2.endAddr ≤ base) {k : ℕ} {t : Segment}
    (ht : v.tags.get k = some t) : k + t.size ≤ base ∨ limit ≤ k := by
  by_cases hk : limit ≤ k
  · exact .inr hk
  obtain ⟨u, hu, rfl⟩ := h.view.get ht
  cases hl : v.segments.last (· < limit) with
  | none =>
    have := last_eq_none.mp hl k u hu
    simp at this
    omega
  | some e =>
    obtain ⟨j, m⟩ := e
    obtain ⟨hm, -, hmax⟩ := last_eq_some hl
    have hend : m.endAddr ≤ base := hlast (j, m) hl
    have hj : m.endAddr = j + m.unlinked.size := by rw [Segment.endAddr, h.keyed j m hm]; rfl
    rcases (hmax k u hu (decide_eq_true (by omega))).eq_or_lt with rfl | hlt
    · rw [hm, some.injEq] at hu
      rw [← hu]
      omega
    · have := h.apart ht (get_tags_of hm) hlt
      omega

end Vmem

namespace VmemM
open Act Vmem
variable {s : Arena} {lists : ℕ → List ℕ} {spans : Index ℕ ℕ}

theorem addSpan_spec (h : s.vmem.Inv spans lists) (base size : ℕ) :
    wp (fun _ => False) (addSpan base size)
      (fun _ s' => (∃ lists', s'.vmem.Inv (spans.insert base size) lists') ∧
        s'.vmem.quantum = s.vmem.quantum)
      (fun _ s' => s'.vmem = s.vmem) s := by
  simp only [addSpan, wp_bind, wp_vmem]
  cases hc : checkedAdd base size with
  | none => rfl
  | some limit =>
    cases hc' : checkedAdd s.vmem.total size with
    | none => rfl
    | some total =>
      obtain ⟨rfl, hlimit⟩ := checkedAdd_eq_some.mp hc
      obtain ⟨rfl, -⟩ := checkedAdd_eq_some.mp hc'
      by_cases hbad : size = 0 ∨ ¬ s.vmem.quantum ∣ base ∨ ¬ s.vmem.quantum ∣ size ∨
          (s.vmem.segments.last (· < base + size)).any (fun e => base < e.2.endAddr)
      · simp only [hbad, if_true, wp_bind, wp_fail]
      simp only [hbad, if_false, wp_bind]
      simp only [not_or, not_not] at hbad
      obtain ⟨hsize, hqb, hqs, hany⟩ := hbad
      have hfresh : ∀ k t, s.vmem.tags.get k = some t → k + t.size ≤ base ∨ base + size ≤ k := by
        refine fun k t ht => h.fresh (fun e he => ?_) ht
        simp only [he, any_some, decide_eq_true_eq] at hany
        omega
      have hnew : s.vmem.tags.get base = none := by
        cases hb : s.vmem.tags.get base with
        | none => rfl
        | some t =>
          have := (h.tag_bounds hb).1
          rcases hfresh base t hb with hf | hf <;> omega
      have hoff : ¬ Listed lists base := by
        rw [h.get_tags_free, hnew]
        rintro ⟨t, ht, -⟩
        cases ht
      refine wp_reserveTag (fun supply => ?_) fun _ => rfl
      refine wp_insertTag_view h.view hnew rfl fun w hv => ?_
      refine wp_pushFree_view hv (by rw [get_insert, if_pos rfl]) hoff
        fun w' hv' => ?_
      refine ⟨⟨_, View.inv
        { hv' with linked := hv'.linked.congr (fun _ _ => rfl) rfl rfl, total_eq := rfl }
        h.quantum (fun k t ht => ?_) ?_ (fun k => ?_) (fun b n hn => ?_) ?_ ?_⟩, hv'.quantum_eq⟩
      · rw [get_insert] at ht
        split_ifs at ht with hk
        · rw [← some.inj ht, hk]
        · exact h.keyed_tags ht
      · have hadd := h.tiled_tags.add (Nat.pos_of_ne_zero hsize) hqb hqs fun k p hp => by
          obtain ⟨t, ht, rfl⟩ := map_eq_some_iff.mp hp
          exact hfresh k t ht
        have hg : (fun k => ((s.vmem.tags.insert base
            { base := base, size := size, span := base, free := true }).get k).map Segment.piece) =
            fun k => if k = base then some ⟨size, base, true⟩
              else (s.vmem.tags.get k).map Segment.piece := funext fun k => by
          rw [get_insert]
          split_ifs <;> rfl
        have hs : (spans.insert base size).get = fun c => if c = base then some size
            else spans.get c := funext fun c => get_insert base size spans c
        rw [hg, hs]
        exact hadd
      · rw [listed_push, h.get_tags_free]
        by_cases hk : k = base
        · simp [hk]
        · simp [hk]
      · rw [get_insert] at hn
        split_ifs at hn with hb
        · rw [← some.inj hn, hb]
          exact hlimit
        · exact h.bounded b n hn
      · -- a span already recorded at this base could only be an empty one
        rw [sum_insert, h.total]
        cases hb : spans.get base with
        | none => rw [remove_of_none hb]
        | some n =>
          have hn : n = 0 := by
            by_contra hne
            obtain ⟨k, p, hp, -, hk, hlt⟩ :=
              h.tiled_tags.cover hb le_rfl (Nat.lt_add_of_pos_right (Nat.pos_of_ne_zero hne))
            obtain ⟨t, ht, rfl⟩ := map_eq_some_iff.mp hp
            simp only [Segment.piece] at hlt
            rcases hfresh k t ht with hf | hf <;> omega
          rw [sum_of_get _ hb, hn, add_zero]
      · rw [sum_insert, remove_of_none hnew, h.used, Vmem.tags, sum_mapVals]
        rfl

theorem allocFixed_spec (h : s.vmem.Inv spans lists) (base size : ℕ) :
    wp (fun _ => False) (allocFixed base size)
      (fun _ s' => (∃ lists', s'.vmem.Inv spans lists') ∧
        ∃ n, s.vmem.roundSize size = .ok n ∧ 0 < n ∧ Took s.vmem s'.vmem base n)
      (fun _ s' => s'.vmem = s.vmem) s := by
  simp only [allocFixed, wp_bind]
  refine wp_liftResult (fun n hn => ?_) fun _ _ => rfl
  obtain ⟨hpos, hqn, hqb, -, hround⟩ := fixedSize_spec h.quantum hn
  cases hf : fixedSegment s.vmem base n with
  | none => rfl
  | some segment =>
    simp only [wp_bind]
    exact wp_takeFound h (fixedSegment_fits hqb hf) hpos hqn
      (fun _ lists' _ hinv htook => ⟨⟨lists', hinv⟩, n, hround, hpos, htook⟩) fun _ => rfl

structure ReservedFor (quantum : ℕ) (r : Reservation) : Prop where
  pos : 0 < r.size
  aligned : quantum ∣ r.base ∧ quantum ∣ r.size
  start : r.start = some r.base
  trailing : r.trailing = some (r.base + r.size)

theorem reserveFixed_spec (hq : IsPowerOfTwo s.vmem.quantum) (base size : ℕ) :
    wp (fun _ => False) (reserveFixed base size)
      (fun r s' => ReservedFor s.vmem.quantum r ∧ s'.vmem = s.vmem)
      (fun _ s' => s'.vmem = s.vmem) s := by
  simp only [reserveFixed, wp_bind]
  refine wp_liftResult (fun n hn => ?_) fun _ _ => rfl
  obtain ⟨hpos, hqn, hqb, -⟩ := fixedSize_spec hq hn
  refine wp_reserveTag (fun supply => ?_) fun _ => rfl
  exact wp_reserveTag (fun _ => ⟨⟨hpos, ⟨hqb, hqn⟩, rfl, rfl⟩, rfl⟩) fun _ => rfl

theorem allocReserved_spec (h : s.vmem.Inv spans lists) {r : Reservation}
    (hr : ReservedFor s.vmem.quantum r) :
    wp (fun p => p = .reservedRangeNotFree) (allocReserved r)
      (fun _ s' => (∃ lists', s'.vmem.Inv spans lists') ∧ Took s.vmem s'.vmem r.base r.size)
      (fun _ s' => s'.vmem = s.vmem) s := by
  simp only [allocReserved, wp_bind, wp_vmem]
  cases hf : fixedSegment s.vmem r.base r.size with
  | none => rfl
  | some segment =>
    have hfit := fixedSegment_fits hr.aligned.1 hf
    obtain ⟨t, ht, hfree, hle, hend, hqb⟩ := id hfit
    exact wp_take hle hr.pos hend h ht hfree hqb hr.aligned.2 (fun _ => hr.start)
      (fun _ => hr.trailing) fun w lists' hinv htags hq htot hused =>
        ⟨⟨lists', hinv⟩, segment, t, ht, hfit, htags, hq, htot, hused⟩

inductive Call where
  | addSpan (base size : ℕ)
  | alloc (size align : ℕ) (fit : VmemFit)
  | xalloc (size align min max : ℕ) (fit : VmemFit)
  | allocRandom (size align entropy : ℕ)
  | allocFixed (base size : ℕ)
  | reserveFixed (base size : ℕ)
  | allocReserved (reservation : Reservation)
  | free (base : ℕ)

/-- An arena, the spans it was given, and the reservations its clients hold. -/
structure Session where
  arena : Arena
  spans : Index ℕ ℕ
  reservations : List Reservation

def Call.exec (σ : Session) : Call → VmemM (Index ℕ ℕ × List Reservation)
  | .addSpan base size => do
    VmemM.addSpan base size
    return (σ.spans.insert base size, σ.reservations)
  | .alloc size align fit => do
    let _ ← VmemM.alloc size align fit
    return (σ.spans, σ.reservations)
  | .xalloc size align min max fit => do
    let _ ← VmemM.xalloc size align min max fit
    return (σ.spans, σ.reservations)
  | .allocRandom size align entropy => do
    let _ ← VmemM.allocRandom size align entropy
    return (σ.spans, σ.reservations)
  | .allocFixed base size => do
    VmemM.allocFixed base size
    return (σ.spans, σ.reservations)
  | .reserveFixed base size => do
    let r ← VmemM.reserveFixed base size
    return (σ.spans, r :: σ.reservations)
  | .allocReserved r => do
    VmemM.allocReserved r
    return (σ.spans, σ.reservations.erase r)
  | .free base => do
    let _ ← VmemM.free base
    return (σ.spans, σ.reservations)

/-- A client frees only live allocations and uses only reservations it was given. -/
def Call.Allowed (σ : Session) : Call → Prop
  | .free base => ∃ t, σ.arena.vmem.segments.get base = some t ∧ t.free = false
  | .allocReserved r => r ∈ σ.reservations
  | _ => True

inductive Reachable (quantum : ℕ) : Session → Prop
  | new {v : Vmem} (supply : Supply) (h : Vmem.new quantum = .ok v) :
      Reachable quantum ⟨⟨v, supply⟩, .empty, []⟩
  | ok {σ : Session} {c : Call} {spans : Index ℕ ℕ} {reservations : List Reservation} {a : Arena}
      (hσ : Reachable quantum σ) (hc : c.Allowed σ)
      (h : c.exec σ σ.arena = .ok (spans, reservations) a) :
      Reachable quantum ⟨a, spans, reservations⟩
  | err {σ : Session} {c : Call} {e : VmemError} {a : Arena} (hσ : Reachable quantum σ)
      (hc : c.Allowed σ) (h : c.exec σ σ.arena = .err e a) :
      Reachable quantum ⟨a, σ.spans, σ.reservations⟩

def Session.Good (σ : Session) : Prop :=
  (∃ lists, σ.arena.vmem.Inv σ.spans lists) ∧
    ∀ r ∈ σ.reservations, ReservedFor σ.arena.vmem.quantum r

theorem Session.Good.keep {σ : Session} (h : σ.Good) {a : Arena} {spans : Index ℕ ℕ}
    (hinv : ∃ lists, a.vmem.Inv spans lists) (hq : a.vmem.quantum = σ.arena.vmem.quantum) :
    Session.Good ⟨a, spans, σ.reservations⟩ := by
  refine ⟨hinv, fun r hr => ?_⟩
  rw [hq]
  exact h.2 r hr

theorem Session.Good.took {σ : Session} (h : σ.Good) {a : Arena} {lists : ℕ → List ℕ}
    {base size : ℕ} (hinv : a.vmem.Inv σ.spans lists) (ht : Took σ.arena.vmem a.vmem base size) :
    Session.Good ⟨a, σ.spans, σ.reservations⟩ := by
  obtain ⟨-, -, -, -, -, hq, -⟩ := ht
  exact h.keep ⟨lists, hinv⟩ hq

/-- One call: the invariant on return, no change on failure, and a single possible stop. -/
theorem Call.exec_spec {σ : Session} (h : σ.Good) {c : Call} (hc : c.Allowed σ) :
    wp (fun p => p = .reservedRangeNotFree ∧ ∃ r, c = .allocReserved r) (c.exec σ)
      (fun out a => Session.Good ⟨a, out.1, out.2⟩) (fun _ a => a.vmem = σ.arena.vmem) σ.arena := by
  obtain ⟨lists, hinv⟩ := h.1
  have halloc : ∀ {m : VmemM ℕ}, Allocates σ.spans m σ.arena →
      wp (fun p => p = .reservedRangeNotFree ∧ ∃ r, c = .allocReserved r)
        (do let _ ← m; return (σ.spans, σ.reservations))
        (fun out a => Session.Good ⟨a, out.1, out.2⟩) (fun _ a => a.vmem = σ.arena.vmem)
        σ.arena := by
    intro m hm
    simp only [wp_bind]
    exact wp_mono hm (fun _ hp => hp.elim)
      (fun _ a ⟨_, _, _, hinv', ht⟩ => h.took hinv' ht) fun _ _ he => he
  cases c with
  | addSpan base size =>
    simp only [exec, wp_bind]
    exact wp_mono (addSpan_spec hinv base size) (fun _ hp => hp.elim)
      (fun _ _ ⟨hinv', hq⟩ => h.keep hinv' hq) fun _ _ he => he
  | alloc size align fit => exact halloc (xalloc_allocates hinv size align 0 u64Max fit)
  | xalloc size align min max fit => exact halloc (xalloc_allocates hinv size align min max fit)
  | allocRandom size align entropy => exact halloc (allocRandom_allocates hinv size align entropy)
  | allocFixed base size =>
    simp only [exec, wp_bind]
    exact wp_mono (allocFixed_spec hinv base size) (fun _ hp => hp.elim)
      (fun _ a ⟨⟨_, hinv'⟩, _, _, _, ht⟩ => h.took hinv' ht) fun _ _ he => he
  | reserveFixed base size =>
    simp only [exec, wp_bind]
    refine wp_mono (reserveFixed_spec hinv.quantum base size) (fun _ hp => hp.elim)
      (fun r a ⟨hr, hv⟩ => ⟨⟨lists, hv ▸ hinv⟩, ?_⟩) fun _ _ he => he
    rw [hv]
    exact List.forall_mem_cons.mpr ⟨hr, h.2⟩
  | allocReserved r =>
    simp only [exec, wp_bind]
    refine wp_mono (allocReserved_spec hinv (h.2 r hc)) (fun p hp => ⟨hp, r, rfl⟩)
      (fun _ a ⟨⟨_, hinv'⟩, ht⟩ => ?_) fun _ _ he => he
    obtain ⟨hgood, hres⟩ := h.took hinv' ht
    exact ⟨hgood, fun r' hr' => hres r' (List.mem_of_mem_erase hr')⟩
  | free base =>
    obtain ⟨t, ht, hlive⟩ := hc
    simp only [exec, wp_bind]
    exact wp_free hinv ht hlive fun w lists' lo hi hinv' _ _ hq _ _ => h.keep ⟨lists', hinv'⟩ hq

theorem Reachable.good {quantum : ℕ} {σ : Session} (h : Reachable quantum σ) : σ.Good := by
  induction h with
  | new supply hv =>
    unfold Vmem.new at hv
    split_ifs at hv with hq
    obtain rfl := Except.ok.inj hv
    exact ⟨⟨_, Inv.new hq⟩, fun r hr => by cases hr⟩
  | ok _ hc hrun ih =>
    exact (wp_ok (Call.exec_spec ih hc) hrun :)
  | @err σ c e a _ hc hrun ih =>
    -- the pools' answers are not part of the invariant
    have hv := wp_err (Call.exec_spec ih hc) hrun
    obtain ⟨⟨lists, hinv⟩, hres⟩ := ih
    exact ⟨⟨lists, hv ▸ hinv⟩, fun r hr => hv ▸ hres r hr⟩

/-- After any run of calls the tags tile exactly the spans given, the free tags are the listed ones,
and the counters are the sums they stand for. A call that fails changes nothing, and only the use of a
reservation whose range is no longer free can stop. -/
theorem arena_wellFormed {quantum : ℕ} {σ : Session} (h : Reachable quantum σ) :
    (∃ lists, σ.arena.vmem.Inv σ.spans lists) ∧
    ∀ c : Call, c.Allowed σ →
      (∀ e a, c.exec σ σ.arena = .err e a → a.vmem = σ.arena.vmem) ∧
      ∀ p, c.exec σ σ.arena = .panic p →
        p = .reservedRangeNotFree ∧ ∃ r, c = .allocReserved r := by
  refine ⟨h.good.1, fun c hc => ?_⟩
  have hspec := Call.exec_spec h.good hc
  refine ⟨fun e a hrun => ?_, fun p hrun => ?_⟩
  · exact (wp_err hspec hrun :)
  · exact (wp_panic hspec hrun :)

theorem arena_wellFormed_example : ∃ σ : Session, Reachable 4 σ ∧ σ.spans.get 0 = some 64 ∧
    σ.arena.vmem.used = 8 ∧ ∃ lists, σ.arena.vmem.Inv σ.spans lists := by
  have h : Reachable 4 ⟨⟨Vmem.empty 4, [true, true, false]⟩, .empty, []⟩ :=
    .new _ (by simp [Vmem.new, show IsPowerOfTwo 4 by decide])
  have h := Reachable.ok (c := .addSpan 0 64) h trivial rfl
  have h := Reachable.ok (c := .alloc 5 4 .instant) h trivial rfl
  have h := Reachable.err (c := .allocFixed 16 4) h trivial rfl
  exact ⟨_, h, rfl, rfl, (arena_wellFormed h).1⟩

/-! An allocation is placed inside one free tag and the bounds, wherever there is room, and for the
best fit in the smallest tag that has room. -/
variable {size align min max k base : ℕ}

theorem not_full (h : s.vmem.Inv spans lists) (hw : align < 2 ^ 64)
    (ha : s.vmem.Admits size (Nat.max align s.vmem.quantum) min max k base) :
    ¬ s.vmem.Full size (Nat.max align s.vmem.quantum) min max k := by
  obtain ⟨t, ht, -⟩ := id ha
  have hpiece := pieces_eq_some.mpr ⟨t, ht, rfl⟩
  have hle : s.vmem.quantum ≤ t.size := Nat.le_of_dvd (h.tiled.pos hpiece) (h.tiled.aligned hpiece).2
  have hlt : t.size < 2 ^ 64 := (Nat.le_add_left _ _).trans_lt (h.size_lt ht)
  exact fun hfull => hfull (Nat.max_lt.mpr ⟨hw, hle.trans_lt hlt⟩) base ha

/-- A search returns, and it returns a tag if and only if one has room. -/
theorem search_iff (size min max : ℕ) (best quick : Bool) (h : s.vmem.Inv spans lists)
    (ha : IsPowerOfTwo align) (hw : align < 2 ^ 64) (hquick : quick = true → Nat.max align s.vmem.quantum = s.vmem.quantum ∧
      min = 0 ∧ max = u64Max ∧ best = false) :
    (∃ r a, (if quick = true then instantFit size
      else scanFit size (Nat.max align s.vmem.quantum) min max best) s = .ok (some r) a) ↔
      ∃ k b, s.vmem.Admits size (Nat.max align s.vmem.quantum) min max k b := by
  have hsearch := wp_search (T := fun _ => False) (E := fun _ _ => False)
    (Q := fun r _ => r.isSome = true ↔
      ∃ k b, s.vmem.Admits size (Nat.max align s.vmem.quantum) min max k b)
    h (dvd_max_quantum h.quantum ha).1 hquick
    (fun hfull => ⟨nofun, fun ⟨k, b, hb⟩ => absurd (hfull k) (not_full h hw hb)⟩)
    fun k b hk => ⟨fun _ => ⟨k, b, hk.1⟩, fun _ => rfl⟩
  obtain ⟨r, a, hrun, hiff⟩ := wp_returns hsearch
  rw [← hiff, hrun]
  cases r with
  | none =>
    refine ⟨fun hfound => ?_, nofun⟩
    obtain ⟨r, a', heq⟩ := hfound
    cases heq
  | some r => exact ⟨fun _ => rfl, fun _ => ⟨r, a, rfl⟩⟩

/-- An allocation lies in one free tag and in the bounds, and fails for lack of space only where no
tag has room; the best fit takes the smallest. The quick search succeeds if and only if a scan would.
No random offset leaves the tag, or overflows on the way. -/
theorem vmem_placement {quantum : ℕ} {σ : Session} (h : Reachable quantum σ) (size align : ℕ)
    (halign : IsPowerOfTwo align) (hword : align < 2 ^ 64) :
    (∀ min max fit base a, min < max →
      xalloc size align min max fit σ.arena = .ok base a →
      ∃ n segment, σ.arena.vmem.roundSize size = .ok n ∧
        σ.arena.vmem.Admits n (Nat.max align σ.arena.vmem.quantum) min max segment base ∧
        (fit = .best → ∀ t, σ.arena.vmem.segments.get segment = some t → ∀ k u b,
          σ.arena.vmem.segments.get k = some u →
          σ.arena.vmem.Admits n (Nat.max align σ.arena.vmem.quantum) min max k b →
          t.size ≤ u.size)) ∧
    (∀ min max fit a, min < max → xalloc size align min max fit σ.arena = .err .noSpace a →
      ∃ n, σ.arena.vmem.roundSize size = .ok n ∧ ∀ segment base,
        ¬ σ.arena.vmem.Admits n (Nat.max align σ.arena.vmem.quantum) min max segment base) ∧
    (∀ n, (∃ r a, instantFit n σ.arena = .ok (some r) a) ↔
      ∃ r a, scanFit n σ.arena.vmem.quantum 0 u64Max false σ.arena = .ok (some r) a) ∧
    ∀ n segment start a entropy, σ.arena.vmem.roundSize size = .ok n →
      (if Nat.max align σ.arena.vmem.quantum = σ.arena.vmem.quantum then instantFit n
        else scanFit n (Nat.max align σ.arena.vmem.quantum) 0 u64Max false) σ.arena =
          .ok (some (segment, start)) a →
      ∃ t, σ.arena.vmem.segments.get segment = some t ∧ t.free = true ∧ segment ≤ start ∧
        start + n ≤ t.endAddr ∧ t.endAddr < 2 ^ 64 ∧
        (t.endAddr - start - n) / Nat.max align σ.arena.vmem.quantum + 1 < 2 ^ 64 ∧
        start + entropy % ((t.endAddr - start - n) / Nat.max align σ.arena.vmem.quantum + 1) *
          Nat.max align σ.arena.vmem.quantum + n ≤ t.endAddr := by
  obtain ⟨lists, hinv⟩ := h.good.1
  refine ⟨fun min max fit base a _ hrun => ?_, fun min max fit a _ hrun => ?_, fun n => ?_,
    fun n segment start a entropy hn hrun => ?_⟩
  · obtain ⟨n, segment, -, hn, -, -, -, hadmits, hbest⟩ :=
      wp_ok (xalloc_spec hinv size align min max fit) hrun
    refine ⟨n, segment, hn, hadmits, fun hfit t ht k u b hu hb => ?_⟩
    exact hbest (decide_eq_true hfit) t ht k u trivial hu (not_full hinv hword hb)
  · obtain ⟨n, hn, hfull⟩ := (wp_err (xalloc_spec hinv size align min max fit) hrun).2 rfl
    exact ⟨n, hn, fun segment base hb => not_full hinv hword hb (hfull segment)⟩
  · have hone : Nat.max 1 σ.arena.vmem.quantum = σ.arena.vmem.quantum :=
      Nat.max_eq_right hinv.quantum.pos
    have hunit : IsPowerOfTwo 1 := by decide
    have hquick := search_iff n 0 u64Max false true hinv hunit (by decide)
      fun _ => ⟨hone, rfl, rfl, rfl⟩
    have hscan := search_iff n 0 u64Max false false hinv hunit (by decide) nofun
    rw [hone] at hquick hscan
    exact hquick.trans hscan.symm
  · obtain ⟨ha, hqa⟩ := dvd_max_quantum hinv.quantum halign
    have hsearch := wp_search (T := fun _ => False) (E := fun _ _ => False)
      (Q := fun r _ => ∀ k b, r = some (k, b) →
        σ.arena.vmem.Admits n (Nat.max align σ.arena.vmem.quantum) 0 u64Max k b)
      hinv ha (fun hc => ⟨hc, rfl, rfl, rfl⟩) (fun _ => nofun) fun k b hk _ _ heq => by
        cases heq
        exact hk.1
    have hfit := (wp_ok hsearch hrun segment start rfl).fits hqa
    obtain ⟨t, ht, hf, hle, hend, -⟩ := id hfit
    obtain ⟨u, hu, -, -, hrandom, -⟩ := fits_random entropy ht hfit hqa
    obtain rfl := Option.mem_unique hu ht
    have hlt := hinv.size_lt ht
    have hdiv := Nat.div_le_self (u.endAddr - start - n) (Nat.max align σ.arena.vmem.quantum)
    have hpos := (roundSize_spec hinv.quantum hn).1
    exact ⟨u, ht, hf, hle, hend, hlt, by omega, hrandom⟩

theorem vmem_placement_example : ∃ σ : Session, Reachable 4 σ ∧
    (∃ a, xalloc 5 4 0 64 .best σ.arena = .ok 0 a) ∧
    ∃ n segment, σ.arena.vmem.roundSize 5 = .ok n ∧
      σ.arena.vmem.Admits n (Nat.max 4 σ.arena.vmem.quantum) 0 64 segment 0 := by
  have h₀ : Reachable 4 ⟨⟨Vmem.empty 4, [true, true, true]⟩, .empty, []⟩ :=
    .new _ (by simp [Vmem.new, show IsPowerOfTwo 4 by decide])
  have h₁ := Reachable.ok (c := .addSpan 0 64) h₀ trivial rfl
  obtain ⟨n, segment, hn, hadmits, -⟩ :=
    (vmem_placement h₁ 5 4 (by decide) (by decide)).1 0 64 .best 0 _ (by decide) rfl
  exact ⟨_, h₁, ⟨_, rfl⟩, n, segment, hn, hadmits⟩

end VmemM
end Roanix.Mem
