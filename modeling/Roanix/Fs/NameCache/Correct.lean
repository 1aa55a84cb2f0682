import Roanix.Fs.NameCache.Run

/-! Lookups through the cache are linearizable while no sequence goes round, and not longer. -/
namespace Roanix.Fs.NameCache
open Function State
open Lib (Machine)

/-- A lookup has an answer that the name did not mean at any moment since the call. -/
def World.Stale {β ι : Type} (w : World β ι) : Prop :=
  ∃ i d n r t, w.state.place i = .returned d n r ∧ r.binding = some t ∧ t ∉ w.notes.seen i

/-- Every answer is what the name meant at some moment since the call; every entry is what the name
means; and who adds an entry has not met a writer since it took its stamp. -/
theorem lookup_linearizable {β ι : Type} [DecidableEq ι] [Fintype ι] {w : World β ι}
    (hw : (boundedMachine β ι).Reachable w) :
    ¬ w.Stale ∧
      (∀ j slot e, (w.state.cache j).entries slot = some e →
        e.target = w.state.binding e.parent e.name) ∧
      ∀ i d n stamp r, w.state.place i = .passed d n stamp r →
        snapshot (w.state.sequence d) = some stamp → ¬ w.notes.met i := by
  obtain ⟨h, hb⟩ := hw.invariant (I := fun w => Inv w ∧ w.Bounded) (fun _ h => ⟨h.inv, h.bounded⟩)
    fun _ _ h hstep => ⟨h.1.step h.2 hstep.1, hstep.2⟩
  refine ⟨?_, fun j slot e he => h.cache.fresh he, fun i d n stamp r hi hs => ?_⟩
  · rintro ⟨i, d, n, r, t, hi, ht, hno⟩
    refine hno (h.answers ?_ ht)
    rw [hi]
    rfl
  · have hstamp : (w.state.place i).stamp = some (d, stamp) := by
      rw [hi]
      rfl
    exact h.met hstamp (h.came_eq_mark hb hs hstamp)

section Runs
variable {ι : Type} [DecidableEq ι]

def World.after {β : Type} (w : World β ι) (e : Event ι) (s' : State β ι) : World β ι :=
  ⟨s', w.notes.observe e s'⟩

theorem reachable_after {β : Type} {w : World β ι} (hw : (machine β ι).Reachable w) {e : Event ι}
    {s' : State β ι} (h : Step w.state e s') : (machine β ι).Reachable (w.after e s') :=
  hw.step ⟨e, h, rfl⟩

omit [DecidableEq ι] in
theorem State.setBucket_self {β : Type} (s : State β ι) (d : VnodeKey) (n : Name)
    (f : Bucket β → Bucket β) :
    (s.setBucket d n f).cache (bucket d n) = f (s.cache (bucket d n)) := by
  unfold setBucket
  dsimp only
  rw [update_self]

theorem Binding.set_self {β : Type} (b : Binding β) (d : VnodeKey) (n : Name) (t : Option β) :
    b.set d n t d n = t := if_pos ⟨rfl, rfl⟩

theorem Bucket.find_publish {β : Type} {b : Bucket β} {d : VnodeKey} {n : Name}
    (h : b.find d n = none) (t : Option β) : ∃ slot e, (b.publish d n t).find d n = some slot ∧
      (b.publish d n t).entries slot = some e ∧ e.target = t := by
  have hnew : (b.publish d n t).entries (b.slotFor d n) = some ⟨d, n, t, b.clock⟩ :=
    update_self _ _ _
  cases hfind : (b.publish d n t).find d n with
  | none => exact absurd ⟨rfl, rfl⟩ (Bucket.find_none hfind hnew)
  | some slot =>
    obtain ⟨e, he, hnames⟩ := Bucket.find_some hfind
    refine ⟨slot, e, rfl, he, ?_⟩
    by_cases hslot : slot = b.slotFor d n
    · rw [hslot, hnew] at he
      rw [← Option.some.inj he]
    · rw [Bucket.publish] at he
      dsimp only at he
      rw [update_of_ne hslot] at he
      exact absurd hnames (Bucket.find_none h he)

def sampleKey : VnodeKey := ⟨1, 1⟩

def sampleName : Name := [97]

def sampleOp : Op Unit := .create sampleKey sampleName ()

variable {w : World Unit ι} {i : ι} {stamp : UInt64}

def World.slot (w : World Unit ι) : Option (Fin 8) :=
  (w.state.cache (bucket sampleKey sampleName)).find sampleKey sampleName

theorem seen_of_after {e : Event ι} {s' : State Unit ι} {p : Place Unit} {t : Option Unit}
    (h : t ∈ (w.after e (s'.move i p)).notes.seen i) (hp : p.key = some (sampleKey, sampleName)) :
    t = s'.binding sampleKey sampleName ∨ t ∈ w.notes.seen i ∧ e ≠ .call i := by
  obtain hseen | ⟨d, n, hk, rfl⟩ := h
  · exact .inr hseen
  · rw [move_place, hp] at hk
    cases hk
    exact .inl rfl

section
variable (hw : (machine Unit ι).Reachable w)
include hw

section
variable (hs : snapshot (w.state.sequence sampleKey) = some stamp)
include hs

theorem stale_of_entry {slot : Fin 8} {e : Entry Unit} (hi : w.state.place i = .idle)
    (hb : w.state.binding sampleKey sampleName = some ()) (hfind : w.slot = some slot)
    (he : (w.state.cache (bucket sampleKey sampleName)).entries slot = some e)
    (htarget : e.target = none) :
    ∃ w', (machine Unit ι).Reachable w' ∧ w'.Stale ∧
      w'.notes.came = w.notes.came ∧ w'.notes.gone = w.notes.gone := by
  have h₁ := reachable_after hw (.looks (.call (d := sampleKey) (n := sampleName) hi))
  have h₂ := reachable_after h₁ (.looks (.stamp (move_place _ _ _) hs))
  have h₃ := reachable_after h₂ (.looks (.hit (move_place _ _ _) hfind he hs))
  refine ⟨_, h₃, ⟨i, sampleKey, sampleName, .notFound, none, ?_, rfl, fun hseen => ?_⟩, rfl, rfl⟩
  · refine (move_place _ _ _).trans ?_
    rw [htarget]
    rfl
  · -- Since the call the name has meant the new node.
    obtain hnow | ⟨hseen, -⟩ := seen_of_after hseen rfl
    · cases hnow.trans hb
    obtain hnow | ⟨hseen, -⟩ := seen_of_after hseen rfl
    · cases hnow.trans hb
    obtain hnow | ⟨-, hcall⟩ := seen_of_after hseen rfl
    · cases hnow.trans hb
    · exact hcall rfl

theorem stale_of_passed (hi : w.state.place i = .passed sampleKey sampleName stamp .notFound)
    (hb : w.state.binding sampleKey sampleName = some ()) (hfind : w.slot = none) :
    ∃ w', (machine Unit ι).Reachable w' ∧ w'.Stale ∧ w'.notes.came = w.notes.came ∧
      w'.notes.gone = w.notes.gone := by
  obtain ⟨slot, e, hslot, he, htarget⟩ := Bucket.find_publish hfind none
  have h₁ := reachable_after hw (.looks (.publish hi rfl hs))
  have h₂ := reachable_after h₁ (.looks (.leave (move_place _ _ _)))
  have hbucket := w.state.setBucket_self sampleKey sampleName (·.publish sampleKey sampleName none)
  have hstale := stale_of_entry h₂ hs (move_place _ _ _) hb hslot he htarget
  exact hstale

theorem passed_of_idle (hi : w.state.place i = .idle)
    (hb : w.state.binding sampleKey sampleName = none) (hfind : w.slot = none) :
    ∃ w', (machine Unit ι).Reachable w' ∧
      w'.state.place = update w.state.place i (.passed sampleKey sampleName stamp .notFound) ∧
      w'.state.binding = w.state.binding ∧ w'.state.sequence = w.state.sequence ∧
      w'.notes.came = w.notes.came ∧ w'.notes.gone = w.notes.gone ∧ w'.slot = none := by
  have h := reachable_after hw (.looks (.call (d := sampleKey) (n := sampleName) hi))
  have h := reachable_after h (.looks (.stamp (move_place _ _ _) hs))
  have h := reachable_after h (.looks (.miss (move_place _ _ _) (.inl hfind)))
  have hanswers : Answer.notFound = .ofTarget (w.state.binding sampleKey sampleName) := by
    rw [hb]
    rfl
  have h := reachable_after h (.looks (.load (move_place _ _ _) (.inl hanswers)))
  have h := reachable_after h (.looks (.pass (move_place _ _ _) nofun hs))
  have hbucket := w.state.setBucket_self sampleKey sampleName (·.tick)
  refine ⟨_, h, ?_, rfl, rfl, rfl, rfl, ?_⟩
  · simp only [World.after, move, setBucket, update_idem]
  · exact (congrArg (·.find sampleKey sampleName) hbucket).trans hfind

end

theorem writer_comes (hi : w.state.place i = .idle) (hfind : w.slot = none) :
    ∃ w', (machine Unit ι).Reachable w' ∧
      w'.state.place = update w.state.place i (.opening sampleOp 1) ∧
      w'.state.binding = w.state.binding ∧
      w'.state.sequence sampleKey = w.state.sequence sampleKey + (writer + 1) ∧
      w'.notes.came = update w.notes.came sampleKey (w.notes.came sampleKey + 1) ∧
      w'.notes.gone = w.notes.gone ∧ w'.slot = none := by
  have h := reachable_after hw (.mutates (.start sampleOp hi))
  have h := reachable_after h (.mutates (.count (move_place _ _ _) rfl))
  have h := reachable_after h (.mutates (.retire (move_place _ _ _) rfl))
  have hbucket := w.state.setBucket_self sampleKey sampleName (·.retire sampleKey sampleName)
  rw [Bucket.retire, show Bucket.find _ _ _ = none from hfind] at hbucket
  refine ⟨_, h, ?_, rfl, ?_, rfl, rfl, ?_⟩
  · simp only [World.after, move, setBucket, setSequence, update_idem]
  · simp only [World.after, move, setBucket, setSequence, update_self]
  · exact (congrArg (·.find sampleKey sampleName) hbucket).trans hfind

end

section Crowd

structure Crowd (k : ℕ) (w : World Unit (Fin 65537)) : Prop where
  reach : (machine Unit (Fin 65537)).Reachable w
  binding : w.state.binding sampleKey sampleName = none
  slot : w.slot = none
  sequence : (w.state.sequence sampleKey).toNat = k * 65537
  busy : ∀ i, i.val < k → w.state.place i = .opening sampleOp 1
  idle : ∀ i, k ≤ i.val → w.state.place i = .idle
  came : ∀ d, w.notes.came d ≤ k

theorem Crowd.succ {k : ℕ} {w : World Unit (Fin 65537)} (h : Crowd k w) (hk : k < 65536) :
    ∃ w', Crowd (k + 1) w' := by
  obtain ⟨w', hw', hplace, hbinding, hsequence, hcame, -, hslot⟩ :=
    writer_comes h.reach (h.idle ⟨k, by omega⟩ le_rfl) h.slot
  refine ⟨w', hw', hbinding ▸ h.binding, hslot, ?_, fun i hi => ?_, fun i hi => ?_, fun d => ?_⟩
  · have hword : (writer + 1).toNat = 65537 := rfl
    rw [hsequence, UInt64.toNat_add, h.sequence]
    omega
  · rw [hplace]
    by_cases hik : i = ⟨k, by omega⟩
    · rw [hik, update_self]
    · have : i.val ≠ k := fun hc => hik (Fin.ext hc)
      rw [update_of_ne hik]
      exact h.busy i (by omega)
  · rw [hplace, update_of_ne (Fin.ne_of_val_ne (show i.val ≠ k by omega))]
    exact h.idle i (by omega)
  · rw [hcame]
    exact Lib.update_all (· ≤ k + 1) (Nat.succ_le_succ (h.came sampleKey))
      (fun d => (h.came d).trans (Nat.le_succ k)) d

def emptyWorld (ι : Type) : World Unit ι where
  state := ⟨fun _ _ => none, fun _ => 0, fun _ => .new, fun _ => .idle⟩
  notes := ⟨fun _ => 0, fun _ => 0, fun _ => 0, fun _ => False, fun _ => ∅⟩

theorem emptyWorld_reachable (ι : Type) [DecidableEq ι] :
    (machine Unit ι).Reachable (emptyWorld ι) :=
  .init ⟨fun _ => rfl, fun _ => rfl, fun _ => rfl, fun _ => rfl, fun _ => rfl⟩

theorem exists_crowd (k : ℕ) (hk : k ≤ 65536) : ∃ w, Crowd k w := by
  induction k with
  | zero =>
    exact ⟨emptyWorld _, emptyWorld_reachable _, rfl, rfl, rfl, nofun, fun _ _ => rfl,
      fun _ => le_rfl⟩
  | succ k ih =>
    obtain ⟨w, hw⟩ := ih (by omega)
    exact hw.succ (by omega)

theorem crowd_stale : ∃ w, (machine Unit (Fin 65537)).Reachable w ∧ w.Stale ∧
    ∀ d, w.notes.came d < 2 ^ 47 := by
  obtain ⟨w, h⟩ := exists_crowd 65536 le_rfl
  have hs : snapshot (w.state.sequence sampleKey) = some (w.state.sequence sampleKey) := by
    rw [snapshot_eq_some, h.sequence]
    exact ⟨rfl, rfl⟩
  have hi := h.idle (Fin.last 65536) le_rfl
  obtain ⟨w₁, h₁, hplace, hbinding, hsequence, hcame, -, hslot⟩ :=
    passed_of_idle h.reach hs hi h.binding h.slot
  -- One of the writers makes the name.
  have hwriter : w₁.state.place 0 = .opening sampleOp sampleOp.guards.length := by
    rw [hplace, update_of_ne (by decide)]
    exact h.busy 0 (by decide)
  have heffect : sampleOp.Effect w₁.state.binding
      (w₁.state.binding.set sampleKey sampleName (some ())) :=
    .inl (.create (by rw [hbinding]; exact h.binding))
  have h₂ := reachable_after h₁ (.mutates (.act hwriter heffect))
  have hmade := Binding.set_self w₁.state.binding sampleKey sampleName (some ())
  have hlooking := (congrFun hplace _).trans (update_self _ _ _)
  obtain ⟨w', hw', hstale, hcame', -⟩ := stale_of_passed h₂ (hsequence ▸ hs)
    ((update_of_ne (by decide) _ _).trans hlooking) hmade hslot
  refine ⟨w', hw', hstale, fun d => ?_⟩
  have hfew : w₁.notes.came d ≤ 65536 := by
    rw [hcame]
    exact h.came d
  rw [hcame']
  exact hfew.trans_lt (by decide)

end Crowd

section Rounds

structure Rounds (k : ℕ) (w : World Unit (Fin 2)) : Prop where
  reach : (machine Unit (Fin 2)).Reachable w
  looking : w.state.place 0 = .passed sampleKey sampleName 0 .notFound
  writing : w.state.place 1 = .idle
  binding : k ≠ 0 → w.state.binding sampleKey sampleName = some ()
  first : k = 0 → w.state.binding sampleKey sampleName = none
  slot : w.slot = none
  sequence : (w.state.sequence sampleKey).toNat = k * 2 ^ 17 % 2 ^ 64
  gone : ∀ d, w.notes.gone d = w.notes.came d

theorem Rounds.succ {k : ℕ} {w : World Unit (Fin 2)} (h : Rounds k w) : ∃ w', Rounds (k + 1) w' := by
  obtain ⟨w₁, h₁, hplace, hbinding, hsequence, hcame, hgone, hslot⟩ :=
    writer_comes h.reach h.writing h.slot
  obtain ⟨b, heffect, hb⟩ : ∃ b, sampleOp.Effect w₁.state.binding b ∧
      b sampleKey sampleName = some () := by
    rw [hbinding]
    by_cases hk : k = 0
    · exact ⟨_, .inl (.create (h.first hk)), Binding.set_self _ _ _ _⟩
    · exact ⟨_, .inr rfl, h.binding hk⟩
  have hopen : w₁.state.place 1 = .opening sampleOp sampleOp.guards.length := by
    rw [hplace]
    exact update_self _ _ _
  have h₂ := reachable_after h₁ (.mutates (.act hopen heffect))
  have h₃ := reachable_after h₂ (.mutates (.drop (move_place _ _ _) rfl))
  have h₄ := reachable_after h₃ (.mutates (.finish (move_place _ _ _)))
  refine ⟨_, h₄, ?_, move_place _ _ _, fun _ => hb, nofun, hslot, ?_, fun d => ?_⟩
  · exact (congrFun hplace 0).trans h.looking
  · have hcome : (writer + 1).toNat = 65537 := rfl
    have hgo : (writer - 1).toNat = 65535 := rfl
    simp only [World.after, move, setSequence, update_self, hsequence]
    rw [UInt64.toNat_add, UInt64.toNat_add, h.sequence, hgo]
    omega
  · change update w₁.notes.gone sampleKey (w₁.notes.gone sampleKey + 1) d = w₁.notes.came d
    rw [hgone, hcame, funext h.gone]

theorem exists_rounds (k : ℕ) : ∃ w, Rounds k w := by
  induction k with
  | zero =>
    obtain ⟨w, hw, hplace, hbinding, hsequence, hcame, hgone, hslot⟩ :=
      passed_of_idle (i := (0 : Fin 2)) (emptyWorld_reachable _) rfl rfl rfl rfl
    exact ⟨w, hw, by rw [hplace]; rfl, by rw [hplace]; rfl, nofun, fun _ => by rw [hbinding]; rfl,
      hslot, by rw [hsequence]; rfl, fun d => by rw [hcame, hgone]; rfl⟩
  | succ k ih =>
    obtain ⟨w, hw⟩ := ih
    exact hw.succ

theorem rounds_stale : ∃ w, (machine Unit (Fin 2)).Reachable w ∧ w.Stale ∧
    ∀ d, w.notes.came d = w.notes.gone d := by
  obtain ⟨w, h⟩ := exists_rounds (2 ^ 47)
  have hs : snapshot (w.state.sequence sampleKey) = some 0 := by
    rw [snapshot_eq_some, ← UInt64.toNat_inj, h.sequence]
    decide
  obtain ⟨w', hw', hstale, hcame, hgone⟩ :=
    stale_of_passed h.reach hs h.looking (h.binding (by decide)) h.slot
  exact ⟨w', hw', hstale, fun d => by rw [hcame, hgone, h.gone]⟩

end Rounds

/-- Either of the two bounds is needed. -/
theorem lookup_not_linearizable :
    (∃ w, (machine Unit (Fin 65537)).Reachable w ∧ w.Stale ∧ ∀ d, w.notes.came d < 2 ^ 47) ∧
      ∃ w, (machine Unit (Fin 2)).Reachable w ∧ w.Stale ∧ ∀ d, w.notes.came d = w.notes.gone d :=
  ⟨crowd_stale, rounds_stale⟩

theorem bounded_after {β : Type} {w : World β ι} (hw : (boundedMachine β ι).Reachable w)
    {e : Event ι} {s' : State β ι} (h : Step w.state e s')
    (hnone : ∀ d, (w.after e s').notes.came d = 0) :
    (boundedMachine β ι).Reachable (w.after e s') := by
  refine hw.step ⟨⟨e, h, rfl⟩, fun d => ?_, fun i d stamp _ => ?_⟩
  · rw [hnone d]
    exact Nat.lt_add_left _ (by decide)
  · rw [hnone d]
    exact Nat.lt_add_left _ (by decide)

theorem lookup_linearizable_example : ∃ w : World Unit (Fin 1),
    (boundedMachine Unit (Fin 1)).Reachable w ∧
      w.state.place 0 = .returned sampleKey sampleName .notFound ∧ ¬ w.Stale ∧
      (∃ slot, (w.state.cache (bucket sampleKey sampleName)).find sampleKey sampleName =
        some slot) := by
  have h : (boundedMachine Unit (Fin 1)).Reachable (emptyWorld (Fin 1)) :=
    .init ⟨fun _ => rfl, fun _ => rfl, fun _ => rfl, fun _ => rfl, fun _ => rfl⟩
  have h := bounded_after h (.looks (.call (i := 0) (d := sampleKey) (n := sampleName) rfl))
    fun _ => rfl
  have h := bounded_after h (.looks (.stamp (move_place _ _ _) rfl)) fun _ => rfl
  have h := bounded_after h (.looks (.miss (move_place _ _ _) (.inl rfl))) fun _ => rfl
  have h := bounded_after h (.looks (.load (move_place _ _ _) (.inl rfl))) fun _ => rfl
  have h := bounded_after h (.looks (.pass (move_place _ _ _) nofun rfl)) fun _ => rfl
  have h := bounded_after h (.looks (.publish (move_place _ _ _) rfl rfl)) fun _ => rfl
  refine ⟨_, h, move_place _ _ _, (lookup_linearizable h).1, 0, ?_⟩
  rfl

end Runs

/-- While a guard for a name is out the cache holds nothing for the name, and an entry is where `find`
looks for it, so that there is one for a name. -/
theorem guarded_name_is_uncached {β ι : Type} [DecidableEq ι] [Fintype ι] {w : World β ι}
    (hw : (boundedMachine β ι).Reachable w) :
    (∀ i d n, (d, n) ∈ (w.state.place i).opened → ∀ j, (w.state.cache j).find d n = none) ∧
      ∀ j slot e, (w.state.cache j).entries slot = some e →
        j = bucket e.parent e.name ∧ (w.state.cache j).find e.parent e.name = some slot := by
  obtain ⟨h, -⟩ := hw.invariant (I := fun w => Inv w ∧ w.Bounded) (fun _ h => ⟨h.inv, h.bounded⟩)
    fun _ _ h hstep => ⟨h.1.step h.2 hstep.1, hstep.2⟩
  refine ⟨fun i d n hi j => ?_, fun j slot e he => ⟨(h.cache.home he).symm, ?_⟩⟩
  · cases hfind : (w.state.cache j).find d n with
    | none => rfl
    | some slot =>
      obtain ⟨e, he, rfl, rfl⟩ := Bucket.find_some hfind
      exact absurd ⟨i, hi⟩ (h.cache.shut he)
  · cases hfind : (w.state.cache j).find e.parent e.name with
    | none => exact absurd ⟨rfl, rfl⟩ (Bucket.find_none hfind he)
    | some slot' =>
      obtain ⟨e', he', hnames⟩ := Bucket.find_some hfind
      rw [h.cache.sole he he' hnames]

theorem guarded_name_is_uncached_example : ∃ w : World Unit (Fin 1),
    (boundedMachine Unit (Fin 1)).Reachable w ∧
      (w.state.cache (bucket sampleKey sampleName)).find sampleKey sampleName = some 0 := by
  have h : (boundedMachine Unit (Fin 1)).Reachable (emptyWorld (Fin 1)) :=
    .init ⟨fun _ => rfl, fun _ => rfl, fun _ => rfl, fun _ => rfl, fun _ => rfl⟩
  have h := bounded_after h (.looks (.call (i := 0) (d := sampleKey) (n := sampleName) rfl))
    fun _ => rfl
  have h := bounded_after h (.looks (.stamp (move_place _ _ _) rfl)) fun _ => rfl
  have h := bounded_after h (.looks (.miss (move_place _ _ _) (.inl rfl))) fun _ => rfl
  have h := bounded_after h (.looks (.load (move_place _ _ _) (.inl rfl))) fun _ => rfl
  have h := bounded_after h (.looks (.pass (move_place _ _ _) nofun rfl)) fun _ => rfl
  have h := bounded_after h (.looks (.publish (move_place _ _ _) rfl rfl)) fun _ => rfl
  exact ⟨_, h, ((guarded_name_is_uncached h).2 _ 0 ⟨sampleKey, sampleName, none, 1⟩ rfl).2⟩

end Roanix.Fs.NameCache
