import Roanix.Fs.NameCache.Cache
import Roanix.Lib.Machine
import Roanix.Lib.SeqCount

/-! Runs of the cache beside an observer that counts the writers and notes what each name meant while
it was looked up. -/
namespace Roanix.Fs.NameCache
open Function State List Option
open Lib (Machine weight)

section Places
variable {β : Type}

def Place.key : Place β → Option (VnodeKey × Name)
  | .called d n => some (d, n)
  | .direct d n => some (d, n)
  | .stamped d n _ => some (d, n)
  | .missed d n _ => some (d, n)
  | .loaded d n _ _ => some (d, n)
  | .passed d n _ _ => some (d, n)
  | .returned d n _ => some (d, n)
  | _ => none

def Place.stamp : Place β → Option (VnodeKey × UInt64)
  | .stamped d _ stamp => some (d, stamp)
  | .missed d _ stamp => some (d, stamp)
  | .loaded d _ stamp _ => some (d, stamp)
  | .passed d _ stamp _ => some (d, stamp)
  | _ => none

def Place.answer : Place β → Option (Answer β)
  | .loaded _ _ _ r => some r
  | .passed _ _ _ r => some r
  | .returned _ _ r => some r
  | _ => none

def Place.guards : Place β → List (VnodeKey × Name)
  | .opening op k => op.guards.take k
  | .counted op k => op.guards.take (k + 1)
  | .closing op k => op.guards.take k
  | _ => []

def Place.opened : Place β → List (VnodeKey × Name)
  | .opening op k => op.guards.take k
  | .counted op k => op.guards.take k
  | .closing op k => op.guards.take k
  | _ => []

def Place.weight (d : VnodeKey) (p : Place β) : ℕ := p.guards.countP fun g => decide (g.1 = d)

theorem Place.opened_subset (p : Place β) : p.opened ⊆ p.guards := by
  cases p with
  | counted op k => exact (take_prefix_take_left (Nat.le_succ k)).subset
  | _ => exact List.Subset.refl _

end Places

structure Notes (β ι : Type) where
  /-- How many writers of a directory came, and how many of them went. -/
  came : VnodeKey → ℕ
  gone : VnodeKey → ℕ
  mark : ι → ℕ
  met : ι → Prop
  /-- What a name that is looked up has meant since the call. -/
  seen : ι → Set (Option β)

structure World (β ι : Type) where
  state : State β ι
  notes : Notes β ι

section Worlds
variable {β ι : Type} [DecidableEq ι]

def Notes.countCame (g : Notes β ι) : Event ι → VnodeKey → ℕ
  | .came d => update g.came d (g.came d + 1)
  | _ => g.came

def Notes.countGone (g : Notes β ι) : Event ι → VnodeKey → ℕ
  | .gone d => update g.gone d (g.gone d + 1)
  | _ => g.gone

def Notes.observe (g : Notes β ι) (e : Event ι) (s' : State β ι) : Notes β ι where
  came := g.countCame e
  gone := g.countGone e
  mark := match e with
    | .stamp i d => update g.mark i (g.came d)
    | _ => g.mark
  met i := (g.met i ∧ ∀ d, e ≠ .stamp i d) ∨
    ∃ d stamp, (s'.place i).stamp = some (d, stamp) ∧ g.countCame e d ≠ g.countGone e d
  seen i := { t | t ∈ g.seen i ∧ e ≠ .call i ∨
    ∃ d n, (s'.place i).key = some (d, n) ∧ s'.binding d n = t }

structure World.Initial (w : World β ι) : Prop where
  sequence : ∀ d, w.state.sequence d = 0
  cache : ∀ j, w.state.cache j = .new
  place : ∀ i, w.state.place i = .idle
  came : ∀ d, w.notes.came d = 0
  gone : ∀ d, w.notes.gone d = 0

def World.Next (w w' : World β ι) : Prop :=
  ∃ e, Step w.state e w'.state ∧ w'.notes = w.notes.observe e w'.state

/-- The sequence of no directory goes all the way round: there are fewer than `2 ^ 16` writers of a
directory at a time, and fewer than `2 ^ 47` come while a lookup compares with its stamp. -/
structure World.Bounded (w : World β ι) : Prop where
  writers : ∀ d, w.notes.came d < w.notes.gone d + 2 ^ 16
  during : ∀ i d stamp, (w.state.place i).stamp = some (d, stamp) →
    w.notes.came d < w.notes.mark i + 2 ^ 47

variable (β ι) in
def machine : Machine (World β ι) := ⟨World.Initial, World.Next⟩

variable (β ι) in
def boundedMachine : Machine (World β ι) :=
  ⟨World.Initial, fun w w' => w.Next w' ∧ w'.Bounded⟩

end Worlds

structure Inv {β ι : Type} [Fintype ι] (w : World β ι) : Prop where
  words : ∀ d, (w.state.sequence d).toNat = Lib.SeqCount.word 16 48 (w.notes.came d) (w.notes.gone d)
  counts : ∀ d, w.notes.came d = w.notes.gone d + weight (Place.weight d) w.state.place
  stamps : ∀ {i d stamp}, (w.state.place i).stamp = some (d, stamp) →
    stamp.toNat = Lib.SeqCount.word 16 48 (w.notes.mark i) (w.notes.mark i) ∧
      w.notes.mark i ≤ w.notes.gone d
  met : ∀ {i d stamp}, (w.state.place i).stamp = some (d, stamp) →
    w.notes.came d = w.notes.mark i → ¬ w.notes.met i
  kept : ∀ {i d n stamp r t}, (w.state.place i).key = some (d, n) →
    (w.state.place i).stamp = some (d, stamp) → (w.state.place i).answer = some r →
    w.notes.came d = w.notes.mark i → r.binding = some t → w.state.binding d n = t
  cache : CacheOk w.state.cache w.state.binding fun d n => ∃ i, (d, n) ∈ (w.state.place i).opened
  seen : ∀ {i d n}, (w.state.place i).key = some (d, n) → w.state.binding d n ∈ w.notes.seen i
  answers : ∀ {i r t}, (w.state.place i).answer = some r → r.binding = some t →
    t ∈ w.notes.seen i

section Sequences
variable {β ι : Type} [Fintype ι] {w : World β ι} {d : VnodeKey} {i : ι} {stamp word : UInt64}

theorem snapshot_eq_some : snapshot word = some stamp ↔ word.toNat % 2 ^ 16 = 0 ∧ word = stamp := by
  unfold snapshot
  have hlow : word.toUInt16 = 0 ↔ word.toNat % 2 ^ 16 = 0 := by
    rw [← UInt16.toNat_inj]
    rfl
  split_ifs with h
  · rw [some.injEq]
    exact ⟨fun heq => ⟨hlow.mp h, heq⟩, fun heq => heq.2⟩
  · exact iff_of_false nofun fun hz => h (hlow.mpr hz.1)

theorem Inv.gone_le (h : Inv w) (d : VnodeKey) : w.notes.gone d ≤ w.notes.came d := by
  rw [h.counts]
  exact Nat.le_add_right _ _

section
variable (h : Inv w) (hb : w.Bounded) (hs : snapshot (w.state.sequence d) = some stamp)
include h hb hs

theorem Inv.came_eq_gone : w.notes.came d = w.notes.gone d := by
  obtain ⟨hlow, -⟩ := snapshot_eq_some.mp hs
  rw [h.words] at hlow
  refine (Lib.SeqCount.word_mod_eq_zero (h.gone_le d) ?_).mp hlow
  have := hb.writers d
  omega

theorem Inv.came_eq_mark (hi : (w.state.place i).stamp = some (d, stamp)) :
    w.notes.came d = w.notes.mark i := by
  obtain ⟨hstamp, hmark⟩ := h.stamps hi
  have hquiet := h.came_eq_gone hb hs
  have hword := h.words d
  rw [(snapshot_eq_some.mp hs).2, hstamp, ← hquiet] at hword
  refine (Lib.SeqCount.word_inj (by decide) ?_ (hb.during i d stamp hi) hword).symm
  exact hmark.trans (h.gone_le d)

end

end Sequences

section Steps
variable {β ι : Type} [DecidableEq ι] {s s' : State β ι} {i : ι} {e : Event ι}

structure Looked (s : State β ι) (i : ι) (e : Event ι) (s' : State β ι) : Prop where
  binding : s'.binding = s.binding
  sequence : s'.sequence = s.sequence
  place : s'.place = update s.place i (s'.place i)
  before : (s.place i).guards = []
  after : (s'.place i).guards = []
  came : ∀ d, e ≠ .came d
  gone : ∀ d, e ≠ .gone d
  stamp : ∀ {j d}, e = .stamp j d → j = i
  call : ∀ {j}, e = .call j → j = i ∧ s.place i = .idle

theorem State.move_place (s : State β ι) (i : ι) (p : Place β) : (s.move i p).place i = p :=
  update_self _ _ _

theorem looked_move (s₀ : State β ι) (hb : s₀.binding = s.binding) (hq : s₀.sequence = s.sequence)
    (hp : s₀.place = s.place) {p : Place β} (hbefore : (s.place i).guards = [])
    (hafter : p.guards = []) (hcame : ∀ d, e ≠ .came d) (hgone : ∀ d, e ≠ .gone d)
    (hstamp : ∀ {j d}, e = .stamp j d → j = i) (hcall : ∀ {j}, e = .call j → j = i ∧ s.place i = .idle) :
    Looked s i e (s₀.move i p) where
  binding := hb
  sequence := hq
  place := by
    rw [move_place, ← hp]
    rfl
  before := hbefore
  after := by rw [move_place, hafter]
  came := hcame
  gone := hgone
  stamp := hstamp
  call := hcall

section
variable (h : Looks s i e s')
include h

theorem Looks.looked : Looked s i e s' := by
  cases h with
  | call hi =>
    refine looked_move s rfl rfl rfl (by rw [hi]; rfl) rfl nofun nofun nofun fun heq => ?_
    cases heq
    exact ⟨rfl, hi⟩
  | gated hi | loadDirect hi | load hi | pass hi | refuse hi | outOfMemory hi | late hi | leave hi =>
    exact looked_move s rfl rfl rfl (by rw [hi]; rfl) rfl nofun nofun nofun nofun
  | stamp hi =>
    refine looked_move s rfl rfl rfl (by rw [hi]; rfl) rfl nofun nofun (fun heq => ?_) nofun
    cases heq
    rfl
  | hit hi | miss hi | publish hi =>
    exact looked_move (s := s) (s.setBucket _ _ _) rfl rfl rfl (by rw [hi]; rfl) rfl nofun nofun nofun nofun

variable {d : VnodeKey} {n : Name} {stamp : UInt64} {r : Answer β}

theorem Looks.stamp_cases (hp : (s'.place i).stamp = some (d, stamp)) :
    (e = .stamp i d ∧ snapshot (s.sequence d) = some stamp) ∨
      (∀ d', e ≠ .stamp i d') ∧ (s.place i).stamp = some (d, stamp) := by
  cases h <;> rw [move_place] at hp <;> simp only [Place.stamp, reduceCtorEq] at hp
  case stamp hi hs =>
    cases hp
    exact .inl ⟨rfl, hs⟩
  all_goals
    cases hp
    exact .inr ⟨nofun, by rw [‹s.place i = _›]; rfl⟩

theorem Looks.answer_cases (hr : (s'.place i).answer = some r) :
    (s.place i).answer = some r ∨ ∃ d n, (s.place i).key = some (d, n) ∧ (Answers s d n r ∨
      ∃ slot e₀, (s.cache (bucket d n)).entries slot = some e₀ ∧ e₀.Names d n ∧
        r = .ofTarget e₀.target) := by
  cases h <;> rw [move_place] at hr <;> simp only [Place.answer, reduceCtorEq] at hr
  case hit hi hfind he hs =>
    cases hr
    obtain ⟨e₀, he₀, hnames⟩ := Bucket.find_some hfind
    obtain rfl := mem_unique he₀ he
    exact .inr ⟨_, _, by rw [hi]; rfl, .inr ⟨_, _, he, hnames, rfl⟩⟩
  case loadDirect hi hr' | load hi hr' =>
    cases hr
    exact .inr ⟨_, _, by rw [hi]; rfl, .inl hr'⟩
  all_goals
    cases hr
    exact .inl (by rw [‹s.place i = _›]; rfl)

theorem Looks.kept_cases (hk : (s'.place i).key = some (d, n))
    (hp : (s'.place i).stamp = some (d, stamp)) (hr : (s'.place i).answer = some r) :
    ((∀ d', e ≠ .stamp i d') ∧ (s.place i).key = some (d, n) ∧
      (s.place i).stamp = some (d, stamp) ∧ (s.place i).answer = some r) ∨ Answers s d n r := by
  cases h <;> rw [move_place] at hk hp hr <;>
    simp only [Place.stamp, Place.answer, reduceCtorEq] at hk hp hr
  case load hi hr' =>
    cases hk
    cases hr
    exact .inr hr'
  case pass hi _ _ =>
    cases hk
    cases hp
    cases hr
    exact .inl ⟨nofun, by rw [hi]; rfl, by rw [hi]; rfl, by rw [hi]; rfl⟩

theorem Looks.cache_cases :
    Kept s.cache s'.cache ∨
    ∃ d n stamp r t, s.place i = .passed d n stamp r ∧ r.binding = some t ∧
      snapshot (s.sequence d) = some stamp ∧ s'.cache =
        update s.cache (bucket d n) ((s.cache (bucket d n)).publish d n t) := by
  cases h
  case hit => exact .inl (kept_touch _ _)
  case miss => exact .inl (kept_update fun _ e he => ⟨e, he, rfl, rfl, rfl⟩)
  case publish hi hr hs => exact .inr ⟨_, _, _, _, _, hi, hr, hs, rfl⟩
  all_goals exact .inl fun _ _ e he => ⟨e, he, rfl, rfl, rfl⟩

end

theorem Answer.binding_ofTarget (t : Option β) : (ofTarget t).binding = some t := by
  cases t <;> rfl

omit [DecidableEq ι] in
theorem Answers.binding {t : Option β} (h : Answers s d n r) (hr : r.binding = some t) :
    s.binding d n = t := by
  obtain rfl | rfl := h
  · rw [Answer.binding_ofTarget] at hr
    exact some.inj hr
  · cases hr

section Observe
variable {g : Notes β ι}

theorem le_update_succ (f : VnodeKey → ℕ) (d' d : VnodeKey) :
    f d ≤ update f d' (f d' + 1) d :=
  (forall_update_iff f fun d a => f d ≤ a).mpr ⟨Nat.le_succ _, fun _ _ => le_rfl⟩ d

theorem Notes.observe_came (h : ∀ d, e ≠ .came d) : (g.observe e s').came = g.came := by
  cases e with
  | came d => exact absurd rfl (h d)
  | _ => rfl

theorem Notes.observe_gone (h : ∀ d, e ≠ .gone d) : (g.observe e s').gone = g.gone := by
  cases e with
  | gone d => exact absurd rfl (h d)
  | _ => rfl

theorem Notes.observe_mark {j : ι} (h : ∀ d, e ≠ .stamp j d) :
    (g.observe e s').mark j = g.mark j := by
  cases e with
  | stamp i d =>
    refine update_of_ne (fun hj => h d ?_) _ _
    rw [hj]
  | _ => rfl

theorem Notes.le_observe (d : VnodeKey) :
    g.came d ≤ (g.observe e s').came d ∧ g.gone d ≤ (g.observe e s').gone d := by
  cases e with
  | came d' => exact ⟨le_update_succ g.came d' d, le_rfl⟩
  | gone d' => exact ⟨le_rfl, le_update_succ g.gone d' d⟩
  | _ => exact ⟨le_rfl, le_rfl⟩

theorem Notes.mem_seen {j : ι} {t : Option β} (h : t ∈ g.seen j) (he : e ≠ .call j) :
    t ∈ (g.observe e s').seen j := .inl ⟨h, he⟩

theorem Notes.not_met {j : ι} {d : VnodeKey} {stamp : UInt64}
    (hp : (s'.place j).stamp = some (d, stamp))
    (hquiet : (g.observe e s').came d = (g.observe e s').gone d)
    (hbefore : (∀ d, e ≠ .stamp j d) → ¬ g.met j) : ¬ (g.observe e s').met j := by
  rintro (⟨hmet, hne⟩ | ⟨d', stamp', hp', hbusy⟩)
  · exact hbefore hne hmet
  · obtain ⟨rfl, -⟩ := Prod.mk.inj (mem_unique hp' hp)
    exact hbusy hquiet

end Observe

theorem Looked.other (h : Looked s i e s') {j : ι} (hj : j ≠ i) : s'.place j = s.place j := by
  rw [h.place, update_of_ne hj]

section Looks
variable [Fintype ι] {w : World β ι}

omit [DecidableEq ι] in
theorem Inv.not_opened (h : Inv w) (hquiet : w.notes.came d = w.notes.gone d) (n : Name) :
    ¬ ∃ i, (d, n) ∈ (w.state.place i).opened := by
  rintro ⟨i, hi⟩
  have hpos : 0 < (w.state.place i).weight d :=
    countP_pos_iff.mpr ⟨_, (w.state.place i).opened_subset hi, decide_eq_true rfl⟩
  have hle := Lib.le_weight (Place.weight d) w.state.place i
  have := h.counts d
  omega

omit [Fintype ι] in
theorem Looked.opened (h : Looked s i e s') (d : VnodeKey) (n : Name) :
    (∃ j, (d, n) ∈ (s'.place j).opened) → ∃ j, (d, n) ∈ (s.place j).opened := by
  rintro ⟨j, hj⟩
  by_cases hji : j = i
  · have := (s'.place j).opened_subset hj
    rw [hji, h.after] at this
    cases this
  · rw [h.other hji] at hj
    exact ⟨j, hj⟩

theorem Inv.looks (h : Inv w) (hb : w.Bounded) (hl : Looks w.state i e s') :
    Inv ⟨s', w.notes.observe e s'⟩ := by
  have hf := hl.looked
  have hcame : (w.notes.observe e s').came = w.notes.came := Notes.observe_came hf.came
  have hgone : (w.notes.observe e s').gone = w.notes.gone := Notes.observe_gone hf.gone
  have hstamp {j : ι} (hj : j ≠ i) (d : VnodeKey) : e ≠ .stamp j d := fun he => hj (hf.stamp he)
  have hcall {j : ι} (hj : j ≠ i) : e ≠ .call j := fun he => hj (hf.call he).1
  refine ⟨fun d => ?_, fun d => ?_, fun {j d stamp} hp => ?_, fun {j d stamp} hp hq => ?_,
    fun {j d n stamp r t} hk hp hr hq ht => ?_, ?_, fun {j d n} hk => .inr ⟨d, n, hk, rfl⟩,
    fun {j r t} hr ht => ?_⟩
  · rw [hcame, hgone, hf.sequence]
    exact h.words d
  · rw [hcame, hgone, hf.place]
    have := Lib.weight_update (Place.weight d) w.state.place i (s'.place i)
    have hbefore : (w.state.place i).weight d = 0 := by rw [Place.weight, hf.before]; rfl
    have hafter : (s'.place i).weight d = 0 := by rw [Place.weight, hf.after]; rfl
    have := h.counts d
    omega
  · rw [hgone]
    by_cases hj : j = i
    · subst hj
      obtain ⟨rfl, hs⟩ | ⟨hne, hp⟩ := hl.stamp_cases hp
      · have hquiet := h.came_eq_gone hb hs
        have hmark : (w.notes.observe (.stamp j d) s').mark j = w.notes.came d :=
          update_self _ _ _
        have hword := h.words d
        rw [(snapshot_eq_some.mp hs).2, ← hquiet] at hword
        rw [hmark]
        exact ⟨hword, hquiet.le⟩
      · rw [Notes.observe_mark hne]
        exact h.stamps hp
    · rw [hf.other hj] at hp
      rw [Notes.observe_mark (hstamp hj)]
      exact h.stamps hp
  · have hold (hne : ∀ d, e ≠ .stamp j d) (hp₀ : (w.state.place j).stamp = some (d, stamp)) :
        ¬ (w.notes.observe e s').met j := by
      have hmark := (h.stamps hp₀).2
      have hle := h.gone_le d
      rw [hcame, Notes.observe_mark hne] at hq
      refine Notes.not_met hp ?_ fun _ => h.met hp₀ hq
      rw [hcame, hgone]
      omega
    by_cases hj : j = i
    · subst hj
      obtain ⟨he, hs⟩ | ⟨hne, hp₀⟩ := hl.stamp_cases hp
      · refine Notes.not_met hp ?_ fun hne => absurd he (hne d)
        rw [hcame, hgone]
        exact h.came_eq_gone hb hs
      · exact hold hne hp₀
    · exact hold (hstamp hj) (by rw [← hf.other hj]; exact hp)
  · rw [hf.binding]
    rw [hcame] at hq
    by_cases hj : j = i
    · subst hj
      obtain ⟨hne, hk, hp, hr⟩ | hanswers := hl.kept_cases hk hp hr
      · rw [Notes.observe_mark hne] at hq
        exact h.kept hk hp hr hq ht
      · exact hanswers.binding ht
    · rw [hf.other hj] at hk hp hr
      rw [Notes.observe_mark (hstamp hj)] at hq
      exact h.kept hk hp hr hq ht
  · rw [hf.binding]
    refine CacheOk.weaken ?_ hf.opened
    obtain hkept | ⟨d, n, stamp, r, t, hi, ht, hs, hcache⟩ := hl.cache_cases
    · exact h.cache.kept hkept
    · have hmark := h.came_eq_mark hb hs (by rw [hi]; rfl)
      have hbinding : w.state.binding d n = t :=
        h.kept (by rw [hi]; rfl) (by rw [hi]; rfl) (by rw [hi]; rfl) hmark ht
      rw [hcache, ← hbinding]
      exact h.cache.publish (h.not_opened (h.came_eq_gone hb hs) n)
  · by_cases hj : j = i
    · subst hj
      obtain hr | ⟨d, n, hk, hfrom⟩ := hl.answer_cases hr
      · refine Notes.mem_seen (h.answers hr ht) fun hcall => ?_
        rw [(hf.call hcall).2] at hr
        cases hr
      · refine Notes.mem_seen ?_ fun hcall => ?_
        · obtain hanswers | ⟨slot, e₀, he₀, hnames, rfl⟩ := hfrom
          · rw [← hanswers.binding ht]
            exact h.seen hk
          · rw [Answer.binding_ofTarget, some.injEq, h.cache.fresh he₀, hnames.1,
              hnames.2] at ht
            rw [← ht]
            exact h.seen hk
        · rw [(hf.call hcall).2] at hk
          cases hk
    · rw [hf.other hj] at hr
      exact Notes.mem_seen (h.answers hr ht) (hcall hj)

end Looks

section Mutates

structure Mutated (s : State β ι) (i : ι) (e : Event ι) (s' : State β ι) : Prop where
  place : s'.place = update s.place i (s'.place i)
  key : (s'.place i).key = none
  stamp : (s'.place i).stamp = none
  answer : (s'.place i).answer = none
  marks : ∀ j d, e ≠ .stamp j d
  call : ∀ j, e ≠ .call j

theorem mutated_move (s₀ : State β ι) (hp : s₀.place = s.place) {p : Place β} (hkey : p.key = none)
    (hstamp : p.stamp = none) (hanswer : p.answer = none) (hmarks : ∀ j d, e ≠ .stamp j d)
    (hcall : ∀ j, e ≠ .call j) : Mutated s i e (s₀.move i p) where
  place := by
    rw [move_place, ← hp]
    rfl
  key := by rw [move_place, hkey]
  stamp := by rw [move_place, hstamp]
  answer := by rw [move_place, hanswer]
  marks := hmarks
  call := hcall

theorem Mutates.mutated (h : Mutates s i e s') : Mutated s i e s' := by
  cases h with
  | start | finish => exact mutated_move s rfl rfl rfl rfl nofun nofun
  | count | drop => exact mutated_move (s := s) (s.setSequence _ _) rfl rfl rfl rfl nofun nofun
  | retire => exact mutated_move (s := s) (s.setBucket _ _ _) rfl rfl rfl rfl nofun nofun
  | @act op b' =>
    exact mutated_move (s := s) { s with binding := b' } rfl rfl rfl rfl nofun nofun

theorem Mutated.other (h : Mutated s i e s') {j : ι} (hj : j ≠ i) : s'.place j = s.place j := by
  rw [h.place, update_of_ne hj]

theorem Mutates.words (h : Mutates s i e s') {g : Notes β ι}
    (hw : ∀ d, (s.sequence d).toNat = Lib.SeqCount.word 16 48 (g.came d) (g.gone d)) (d : VnodeKey) :
    (s'.sequence d).toNat = Lib.SeqCount.word 16 48 ((g.observe e s').came d)
      ((g.observe e s').gone d) := by
  cases h with
  | @count op k d' n hi hk | @drop op k d' n hi hk =>
    dsimp only [move, setSequence, Notes.observe, Notes.countCame, Notes.countGone]
    by_cases hd : d = d'
    · subst hd
      rw [update_self, update_self]
      first
      | rw [← Lib.SeqCount.word_came, ← hw d]
      | rw [← Lib.SeqCount.word_gone, ← hw d]
      exact UInt64.toNat_add _ _
    · rw [update_of_ne hd, update_of_ne hd]
      exact hw d
  | start | retire | act | finish => exact hw d

theorem Mutates.weights (h : Mutates s i e s') {g : Notes β ι} (d : VnodeKey) :
    (g.observe e s').came d + (g.gone d + (s.place i).weight d) =
      g.came d + ((g.observe e s').gone d + (s'.place i).weight d) := by
  cases h with
  | @count op k d' n hi hk | @drop op k d' n hi hk =>
    dsimp only [Notes.observe, Notes.countCame, Notes.countGone]
    rw [move_place, hi]
    dsimp only [Place.weight, Place.guards]
    rw [take_add_one, hk, countP_append, toList_some, countP_singleton]
    by_cases hd : d = d'
    · subst hd
      rw [update_self, if_pos (decide_eq_true rfl)]
      omega
    · rw [update_of_ne hd, if_neg fun hc => hd (of_decide_eq_true hc).symm]
      omega
  | start op hi | retire hi hk | act hi hb | finish hi =>
    rw [move_place, hi]
    rfl

theorem Op.Effect.same {op : Op β} {b b' : Binding β} (h : op.Effect b b')
    (hg : (d, n) ∉ op.guards) : b' d n = b d n := by
  obtain h | rfl := h
  · cases h with
    | create | link | unlink =>
      exact if_neg fun hc => hg (by rw [hc.1, hc.2]; exact mem_cons_self)
    | rename =>
      refine (if_neg fun hc => hg ?_).trans (if_neg fun hc => hg ?_)
      · rw [hc.1, hc.2]
        exact mem_cons_of_mem _ mem_cons_self
      · rw [hc.1, hc.2]
        exact mem_cons_self
    | same => rfl
  · rfl

theorem Mutates.binding_cases (h : Mutates s i e s') (d : VnodeKey) (n : Name) :
    s'.binding d n = s.binding d n ∨ (d, n) ∈ (s.place i).opened := by
  cases h with
  | @act op b' hi hb =>
    by_cases hg : (d, n) ∈ op.guards
    · rw [hi]
      refine .inr ?_
      dsimp only [Place.opened]
      rw [take_length]
      exact hg
    · exact .inl (hb.same hg)
  | _ => exact .inl rfl

theorem Mutates.cache (h : Mutates s i e s')
    (hc : CacheOk s.cache s.binding fun d n => ∃ j, (d, n) ∈ (s.place j).opened) :
    CacheOk s'.cache s'.binding fun d n => ∃ j, (d, n) ∈ (s'.place j).opened := by
  have hf := h.mutated
  have hopened (hsub : (s'.place i).opened ⊆ (s.place i).opened) (d : VnodeKey) (n : Name) :
      (∃ j, (d, n) ∈ (s'.place j).opened) → ∃ j, (d, n) ∈ (s.place j).opened := by
    rintro ⟨j, hj⟩
    by_cases hji : j = i
    · subst hji
      exact ⟨j, hsub hj⟩
    · rw [hf.other hji] at hj
      exact ⟨j, hj⟩
  cases h with
  | start op hi | finish hi =>
    refine hc.weaken (hopened ?_)
    rw [move_place]
    exact nil_subset _
  | count hi hk =>
    refine hc.weaken (hopened ?_)
    rw [move_place, hi]
    exact List.Subset.refl _
  | @retire op k d n hi hk =>
    refine hc.retire d n fun d' n' ⟨j, hj⟩ => ?_
    by_cases hji : j = i
    · subst hji
      rw [move_place] at hj
      dsimp only [Place.opened] at hj
      rw [take_add_one, hk, mem_append] at hj
      obtain hj | hj := hj
      · refine .inl ⟨j, ?_⟩
        rw [hi]
        exact hj
      · cases mem_singleton.mp hj
        exact .inr ⟨rfl, rfl⟩
    · rw [hf.other hji] at hj
      exact .inl ⟨j, hj⟩
  | @act op b' hi hb =>
    refine CacheOk.weaken (hc.rebind fun d n hno => hb.same fun hg => hno ⟨i, ?_⟩) (hopened ?_)
    · rw [hi]
      dsimp only [Place.opened]
      rw [take_length]
      exact hg
    · rw [move_place, hi]
      exact List.Subset.refl _
  | drop hi hk =>
    refine hc.weaken (hopened ?_)
    rw [move_place, hi]
    exact (take_prefix_take_left (Nat.le_succ _)).subset

section Keep
variable [Fintype ι] {w : World β ι}

theorem Inv.mutates (h : Inv w) (hm : Mutates w.state i e s') :
    Inv ⟨s', w.notes.observe e s'⟩ := by
  have hf := hm.mutated
  have hown {j : ι} {α : Type} {f : Place β → Option α} {a : α} (hnone : f (s'.place i) = none)
      (hj : f (s'.place j) = some a) : j ≠ i := by
    rintro rfl
    rw [hnone] at hj
    cases hj
  have hcounts (d : VnodeKey) : (w.notes.observe e s').came d =
      (w.notes.observe e s').gone d + Lib.weight (Place.weight d) s'.place := by
    have := h.counts d
    have := hm.weights (g := w.notes) d
    have := Lib.weight_update (Place.weight d) w.state.place i (s'.place i)
    rw [← hf.place] at this
    omega
  -- A lookup whose mark is the number of those who came has met nobody.
  have hmark {j : ι} {d : VnodeKey} {stamp : UInt64} (hj : j ≠ i)
      (hp : (w.state.place j).stamp = some (d, stamp))
      (hq : (w.notes.observe e s').came d = (w.notes.observe e s').mark j) :
      w.notes.came d = w.notes.mark j ∧ w.notes.came d = w.notes.gone d ∧
        (w.notes.observe e s').came d = (w.notes.observe e s').gone d := by
    rw [Notes.observe_mark (hf.marks j)] at hq
    have := (h.stamps hp).2
    have := h.gone_le d
    have := hcounts d
    have : w.notes.came d ≤ (w.notes.observe e s').came d ∧ _ := Notes.le_observe d
    omega
  refine ⟨hm.words h.words, hcounts, fun {j d stamp} hp => ?_, fun {j d stamp} hp hq => ?_,
    fun {j d n stamp r t} hk hp hr hq ht => ?_, hm.cache h.cache,
    fun {j d n} hk => .inr ⟨d, n, hk, rfl⟩, fun {j r t} hr ht => ?_⟩
  · have hj := hown hf.stamp hp
    rw [hf.other hj] at hp
    rw [Notes.observe_mark (hf.marks j)]
    obtain ⟨hword, hle⟩ := h.stamps hp
    exact ⟨hword, hle.trans (Notes.le_observe d).2⟩
  · have hj := hown hf.stamp hp
    have hp₀ : (w.state.place j).stamp = some (d, stamp) := by
      rw [← hf.other hj]
      exact hp
    obtain ⟨hsame, -, hquiet⟩ := hmark hj hp₀ hq
    exact Notes.not_met hp hquiet fun _ => h.met hp₀ hsame
  · have hj := hown hf.stamp hp
    rw [hf.other hj] at hk hp hr
    obtain ⟨hquiet, hnone, -⟩ := hmark hj hp hq
    obtain hsame | hopen := hm.binding_cases d n
    · rw [hsame]
      exact h.kept hk hp hr hquiet ht
    · exact absurd ⟨i, hopen⟩ (h.not_opened hnone n)
  · have hj := hown hf.answer hr
    rw [hf.other hj] at hr
    exact Notes.mem_seen (h.answers hr ht) (hf.call j)

theorem Inv.shrink (h : Inv w) {cache : Fin 256 → Bucket β} (hkept : Kept w.state.cache cache) :
    Inv ⟨{ w.state with cache := cache },
      w.notes.observe .other { w.state with cache := cache }⟩ where
  words := h.words
  counts := h.counts
  stamps := h.stamps
  met {_ d _} hp hq := by
    have hmark := (h.stamps hp).2
    have hle := h.gone_le d
    exact Notes.not_met hp (show w.notes.came d = w.notes.gone d by
      dsimp only [Notes.observe, Notes.countCame] at hq
      omega) fun _ => h.met hp hq
  kept := h.kept
  cache := h.cache.kept hkept
  seen {_ d n} hk := .inr ⟨d, n, hk, rfl⟩
  answers hr ht := Notes.mem_seen (h.answers hr ht) nofun

theorem Inv.step (h : Inv w) (hb : w.Bounded) {w' : World β ι} (hw : w.Next w') : Inv w' := by
  obtain ⟨e, hstep, hnotes⟩ := hw
  obtain ⟨s', g'⟩ := w'
  dsimp only at hstep hnotes
  subst hnotes
  cases hstep with
  | looks hl => exact h.looks hb hl
  | mutates hm => exact h.mutates hm
  | reclaim j => exact h.shrink (kept_update fun _ _ he => nomatch he)
  | purge j filesystem =>
    exact h.shrink (kept_update fun _ e he => ⟨e, (filter_eq_some_iff.mp he).1, rfl, rfl, rfl⟩)

omit [DecidableEq ι] in
theorem World.Initial.inv (h : w.Initial) : Inv w := by
  have hplace (i : ι) : w.state.place i = .idle := h.place i
  have hidle {α : Type} {f : Place β → Option α} {a : α} {i : ι} (hf : f .idle = none)
      (ha : f (w.state.place i) = some a) : False := by
    rw [hplace, hf] at ha
    cases ha
  refine ⟨fun d => ?_, fun d => ?_, fun hp => (hidle rfl hp).elim,
    fun hp _ => (hidle rfl hp).elim, fun hk _ _ _ _ => (hidle rfl hk).elim, ?_, fun hk => (hidle rfl hk).elim,
    fun hr _ => (hidle rfl hr).elim⟩
  · rw [h.sequence, h.came, h.gone]
    rfl
  · rw [h.came, h.gone, Nat.zero_add, eq_comm]
    refine Finset.sum_eq_zero fun i _ => ?_
    rw [hplace]
    rfl
  · refine ⟨fun he => ?_, fun he => ?_, fun he => ?_, fun he => ?_⟩
    all_goals
      rw [h.cache] at he
      cases he

omit [DecidableEq ι] [Fintype ι] in
theorem World.Initial.bounded (h : w.Initial) : w.Bounded := by
  refine ⟨fun d => ?_, fun i d stamp hp => ?_⟩
  · rw [h.came]
    exact Nat.lt_add_left _ (by decide)
  · rw [h.place] at hp
    cases hp

end Keep

end Mutates

end Steps

end Roanix.Fs.NameCache
