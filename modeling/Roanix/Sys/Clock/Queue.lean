import Roanix.Lib.Machine
import Roanix.Sys.Clock.Basic

/-! The callouts of the calendar, against the list of pending timers in the order in which they were
inserted. -/
namespace Roanix.Sys.Clock
open Lib Lib.Act Lib.Tournament Function List
open CalendarQueue

variable {ι : Type} {q q' : CalendarQueue ι} {pending : List ι} {t u : ι} {b c : ℕ}

def CalendarQueue.before (q : CalendarQueue ι) (a b : ι) : Prop := q.timerKey a ≤ q.timerKey b

instance (q : CalendarQueue ι) : DecidableRel q.before :=
  fun a b => inferInstanceAs (Decidable (q.timerKey a ≤ q.timerKey b))

instance (q : CalendarQueue ι) : Std.Total q.before := ⟨fun a b => le_total (q.timerKey a) (q.timerKey b)⟩

instance (q : CalendarQueue ι) : IsTrans ι q.before := ⟨fun _ _ _ => le_trans⟩

/-- The linked timers are the pending ones, numbered as they came, and each is in its bucket. -/
structure Filed (q : CalendarQueue ι) (pending : List ι) : Prop where
  member : ∀ t, t ∈ pending ↔ (q.timers t).linked = true
  ordered : pending.Pairwise fun a b => (q.timers a).order < (q.timers b).order
  bound : ∀ t ∈ pending, (q.timers t).order < q.nextOrder
  bucketed : ∀ b t, t ∈ q.buckets b ↔
    (q.timers t).linked = true ∧ bucket (q.timers t).deadlineNs = b
  distinct : ∀ b, (q.buckets b).Nodup
  sorted : ∀ b, (q.buckets b).Pairwise q.before

structure Ok (q : CalendarQueue ι) (pending : List ι) : Prop where
  filed : Filed q pending
  tree : Tree q
  fresh : ∀ b, b < buckets → Fresh q b

theorem bucket_lt (deadlineNs : ℕ) : bucket deadlineNs < buckets := Nat.mod_lt _ (by decide)

section Link
variable [DecidableEq ι] (q : CalendarQueue ι) (t : ι)

theorem linkTimer_timers : (q.linkTimer t).timers =
    Function.update q.timers t ⟨(q.timers t).deadlineNs, q.nextOrder, true⟩ := rfl

theorem linkTimer_buckets : (q.linkTimer t).buckets =
    Function.update q.buckets (bucket (q.timers t).deadlineNs)
      ((q.buckets (bucket (q.timers t).deadlineNs)).orderedInsert (q.linkTimer t).before t) := by
  have hself : ((q.linkTimer t).timers t).deadlineNs = (q.timers t).deadlineNs := by
    rw [linkTimer_timers, update_self]
  conv_rhs => rw [← hself]
  rfl

theorem linkTimer_timerKey_self :
    (q.linkTimer t).timerKey t = toLex ((q.timers t).deadlineNs, q.nextOrder) := by
  rw [timerKey, linkTimer_timers, update_self]
  rfl

variable {q t}

theorem linkTimer_timerKey (hu : u ≠ t) : (q.linkTimer t).timerKey u = q.timerKey u := by
  rw [timerKey, timerKey, linkTimer_timers, update_of_ne hu]

theorem unlinkTimer_timerKey (u : ι) : (q.unlinkTimer b t).timerKey u = q.timerKey u :=
  update_congr Timer.key (by rfl) u

end Link

namespace Filed

section
variable (h : Filed q pending)
include h

theorem nodup : pending.Nodup :=
  h.ordered.imp fun hlt he => absurd (he ▸ hlt) (Nat.lt_irrefl _)

theorem eq_of_timerKey (ht : t ∈ pending) (hu : u ∈ pending)
    (hkey : q.timerKey t = q.timerKey u) : t = u := by
  have horder : (q.timers t).order = (q.timers u).order :=
    congrArg (fun k : Key => (ofLex k).2) hkey
  have hnodup : (pending.map fun t => (q.timers t).order).Nodup :=
    (pairwise_map.mpr h.ordered).imp Nat.ne_of_lt
  exact inj_on_of_nodup_map hnodup ht hu horder

theorem mem_bucket : t ∈ q.buckets b → t ∈ pending ∧ bucket (q.timers t).deadlineNs = b := by
  rw [h.bucketed, h.member]
  exact id

theorem frame (hlinked : ∀ u, (q'.timers u).linked = (q.timers u).linked)
    (hpending : ∀ u ∈ pending, q'.timers u = q.timers u) (hbuckets : q'.buckets = q.buckets)
    (horder : q'.nextOrder = q.nextOrder) : Filed q' pending := by
  have hbefore : ∀ {a b}, a ∈ pending → b ∈ pending → q.before a b → q'.before a b := by
    intro a b ha hb hle
    rwa [before, timerKey, timerKey, hpending a ha, hpending b hb]
  constructor
  · intro u
    rw [h.member, hlinked]
  · refine h.ordered.imp_of_mem fun ha hb hlt => ?_
    rwa [hpending _ ha, hpending _ hb]
  · intro u hu
    rw [hpending u hu, horder]
    exact h.bound u hu
  · intro b u
    rw [hbuckets, h.bucketed, hlinked]
    refine and_congr_right fun hu => ?_
    rw [hpending u ((h.member u).mpr hu)]
  · rw [hbuckets]
    exact h.distinct
  · intro b
    rw [hbuckets]
    exact (h.sorted b).imp_of_mem fun ha hb => hbefore (h.mem_bucket ha).1 (h.mem_bucket hb).1

theorem link [DecidableEq ι] (hlinked : (q.timers t).linked = false) :
    Filed (q.linkTimer t) (pending ++ [t]) := by
  have hout : ∀ u, u ∈ pending → u ≠ t := by
    rintro u hu rfl
    rw [h.member, hlinked] at hu
    cases hu
  have hnotin : ∀ c, t ∉ q.buckets c := fun c hc => hout t (h.mem_bucket hc).1 rfl
  have hold : ∀ c, (q.buckets c).Pairwise (q.linkTimer t).before := by
    intro c
    refine (h.sorted c).imp_of_mem fun ha hb hle => ?_
    rw [before, linkTimer_timerKey (hout _ (h.mem_bucket ha).1),
      linkTimer_timerKey (hout _ (h.mem_bucket hb).1)]
    exact hle
  constructor
  · intro u
    rw [linkTimer_timers, mem_append, h.member]
    by_cases hu : u = t <;> simp [hu]
  · rw [linkTimer_timers, pairwise_append]
    refine ⟨h.ordered.imp_of_mem fun ha hb hlt => ?_, pairwise_singleton _ _, ?_⟩
    · rwa [update_of_ne (hout _ ha), update_of_ne (hout _ hb)]
    · intro u hu v hv
      rw [mem_singleton.mp hv, update_self, update_of_ne (hout u hu)]
      exact h.bound u hu
  · intro u hu
    rw [linkTimer_timers]
    obtain hu | hu := mem_append.mp hu
    · rw [update_of_ne (hout u hu)]
      exact (h.bound u hu).trans (Nat.lt_succ_self _)
    · rw [mem_singleton.mp hu, update_self]
      exact Nat.lt_succ_self _
  · intro c u
    rw [linkTimer_buckets, linkTimer_timers]
    by_cases hc : c = bucket (q.timers t).deadlineNs
    · rw [hc, update_self, mem_orderedInsert, h.bucketed]
      by_cases hu : u = t <;> simp [hu]
    · rw [update_of_ne hc, h.bucketed]
      by_cases hu : u = t
      · simp [hu, Ne.symm hc]
      · simp [hu]
  · rw [linkTimer_buckets]
    refine update_all List.Nodup ?_ h.distinct
    rw [(perm_orderedInsert _ _ _).nodup_iff, nodup_cons]
    exact ⟨hnotin _, h.distinct _⟩
  · rw [linkTimer_buckets]
    exact update_all (List.Pairwise (q.linkTimer t).before) ((hold _).orderedInsert t _) hold

theorem unlink [DecidableEq ι] (ht : t ∈ q.buckets b) :
    Filed (q.unlinkTimer b t) (pending.erase t) := by
  obtain ⟨hmem, hb⟩ := h.mem_bucket ht
  have hbefore : (q.unlinkTimer b t).before = q.before := by
    funext a c
    rw [before, before, unlinkTimer_timerKey, unlinkTimer_timerKey]
  have htimers : ∀ u, (q.unlinkTimer b t).timers u = if u = t then
      ⟨(q.timers t).deadlineNs, (q.timers t).order, false⟩ else q.timers u :=
    fun u => update_apply _ _ _ u
  have horder : ∀ u, ((q.unlinkTimer b t).timers u).order = (q.timers u).order :=
    update_congr Timer.order (by rfl)
  constructor
  · intro u
    rw [h.nodup.mem_erase_iff, h.member, htimers]
    split_ifs with hu <;> simp [hu]
  · simp only [horder]
    exact h.ordered.sublist erase_sublist
  · intro u hu
    rw [horder]
    exact h.bound u (mem_of_mem_erase hu)
  · intro c u
    rw [htimers]
    by_cases hc : c = b
    · simp only [unlinkTimer, hc, update_self, (h.distinct b).mem_erase_iff, h.bucketed]
      split_ifs with hu <;> simp [hu]
    · simp only [unlinkTimer, update_of_ne hc, h.bucketed]
      split_ifs with hu
      · simp [hu, hb, Ne.symm hc]
      · rfl
  · exact update_all List.Nodup ((h.distinct b).erase t) h.distinct
  · rw [hbefore]
    exact update_all (List.Pairwise q.before) ((h.sorted b).sublist erase_sublist) h.sorted

end

end Filed

section Fresh

theorem Tree.congr (h : Tree q) (hwinners : q'.winners = q.winners) (hheads : q'.heads = q.heads) :
    Tree q' := by
  have hrank : q'.rank = q.rank := by
    funext b
    rw [rank, rank, key, key, hheads]
  constructor
  · rw [hwinners]
    exact h.shape
  · rw [hwinners, hrank]
    exact h.best

theorem Fresh.congr (h : Fresh q b) (hwinners : q'.winners = q.winners) (hheads : q'.heads = q.heads)
    (hfront : q'.front b = q.front b) : Fresh q' b := by
  unfold Fresh key at *
  rw [hwinners, hheads, hfront]
  exact h

theorem front_congr (hbuckets : q'.buckets b = q.buckets b)
    (hkeys : ∀ u ∈ q.buckets b, q'.timerKey u = q.timerKey u) : q'.front b = q.front b := by
  unfold front
  rw [hbuckets]
  cases h : q.buckets b with
  | nil => rfl
  | cons u rest =>
    have hu : u ∈ q.buckets b := h ▸ mem_cons_self
    simp only [head?_cons, Option.map_some, hkeys u hu]

theorem Ok.updateIf (hfiled : Filed q pending) (htree : Tree q) (hb : b < buckets)
    (hothers : ∀ c, c < buckets → c ≠ b → Fresh q c) {changesHead : Bool}
    (hsame : changesHead = false → Fresh q b) : Ok (q.updateIf changesHead b) pending := by
  cases changesHead with
  | false =>
    refine ⟨hfiled, htree, fun c hc => ?_⟩
    by_cases hcb : c = b
    · exact hcb ▸ hsame rfl
    · exact hothers c hc hcb
  | true =>
    obtain ⟨hwon, hself, hkept⟩ := update_spec htree hb
    obtain ⟨winners, heads, hupdate⟩ := update_eq q b
    have hkeeps : Filed (q.update b) pending := by
      rw [hupdate]
      exact hfiled.frame (fun _ => rfl) (fun _ _ => rfl) rfl rfl
    refine ⟨hkeeps, hwon, fun c hc => ?_⟩
    by_cases hcb : c = b
    · exact hcb ▸ hself
    · exact hkept c hc hcb (hothers c hc hcb)

end Fresh

section Changes
variable [DecidableEq ι]

theorem Ok.link_front (h : Ok q pending) (hlinked : (q.timers t).linked = false)
    (hkey : (q.key (q.winners (buckets + bucket (q.timers t).deadlineNs))).all (fun key =>
      decide (toLex ((q.timers t).deadlineNs, q.nextOrder) < key)) = false) :
    (q.linkTimer t).front (bucket (q.timers t).deadlineNs) =
      q.front (bucket (q.timers t).deadlineNs) := by
  rw [h.fresh _ (bucket_lt _)] at hkey
  unfold front at hkey ⊢
  rw [linkTimer_buckets, update_self]
  cases hbucket : q.buckets (bucket (q.timers t).deadlineNs) with
  | nil =>
    rw [hbucket] at hkey
    cases hkey
  | cons u rest =>
    rw [hbucket] at hkey
    have hu : u ∈ pending := (h.filed.mem_bucket (hbucket ▸ mem_cons_self)).1
    have hne : u ≠ t := by
      rintro rfl
      rw [h.filed.member, hlinked] at hu
      cases hu
    have hnot : ¬ (q.linkTimer t).before t u := by
      rw [before, linkTimer_timerKey_self, linkTimer_timerKey hne]
      simp only [head?_cons, Option.map_some, Option.all_some, decide_eq_false_iff_not] at hkey
      intro hle
      refine hkey (lt_of_le_of_ne hle fun heq => ?_)
      have horder : q.nextOrder = (q.timers u).order := congrArg (fun k : Key => (ofLex k).2) heq
      exact (h.filed.bound u hu).ne horder.symm
    rw [orderedInsert_of_not_le _ _ hnot]
    simp only [head?_cons, Option.map_some, linkTimer_timerKey hne]

theorem insertCallout_ok (h : Ok q pending) :
    wp (fun _ => True) (insertCallout t) (fun _ q' => Ok q' (pending ++ [t])) (fun _ _ => True) q := by
  simp only [insertCallout, wp_bind]
  refine wp_check_or (fun hlinked => wp_check_or (fun _ => ?_) fun _ => trivial) fun _ => trivial
  have hout : ∀ c, t ∉ q.buckets c := by
    intro c hc
    rw [h.filed.bucketed, hlinked] at hc
    exact Bool.false_ne_true hc.1
  apply Ok.updateIf (h.filed.link hlinked) (h.tree.congr rfl rfl) (bucket_lt _)
  · intro c hc hcb
    refine (h.fresh c hc).congr rfl rfl (front_congr ?_ fun u hu => linkTimer_timerKey ?_)
    · rw [linkTimer_buckets, update_of_ne hcb]
    · rintro rfl
      exact hout c hu
  · intro hsame
    exact (h.fresh _ (bucket_lt _)).congr rfl rfl (h.link_front hlinked hsame)

theorem unlink_front_of_ne (hcb : c ≠ b) : (q.unlinkTimer b t).front c = q.front c := by
  apply front_congr
  · exact update_of_ne hcb _ _
  · exact fun u _ => unlinkTimer_timerKey u

theorem unlink_front (hkey : q.front b ≠ some (q.timerKey t)) :
    (q.unlinkTimer b t).front b = q.front b := by
  unfold front at hkey ⊢
  simp only [unlinkTimer, update_self]
  cases hbucket : q.buckets b with
  | nil => rfl
  | cons u rest =>
    rw [hbucket] at hkey
    have hne : u ≠ t := by
      rintro rfl
      exact hkey rfl
    rw [erase_cons_tail (by simpa using hne)]
    exact congrArg some (unlinkTimer_timerKey (b := b) u)

theorem Ok.unlink (h : Ok q pending) (ht : t ∈ q.buckets b) (hb : b < buckets) {changesHead : Bool}
    (hsame : changesHead = false → q.key (q.winners (buckets + b)) ≠ some (q.timerKey t)) :
    Ok ((q.unlinkTimer b t).updateIf changesHead b) (pending.erase t) := by
  apply Ok.updateIf (h.filed.unlink ht) (h.tree.congr rfl rfl) hb
  · exact fun c hc hcb => (h.fresh c hc).congr rfl rfl (unlink_front_of_ne hcb)
  · intro hkeep
    have hkey := hsame hkeep
    rw [h.fresh b hb] at hkey
    exact (h.fresh b hb).congr rfl rfl (unlink_front hkey)

theorem removeCallout_ok (h : Ok q pending) :
    wp (fun _ => False) (removeCallout t) (fun _ q' => Ok q' (pending.erase t)) (fun _ _ => False)
      q := by
  simp only [removeCallout, wp_bind, wp_get, wp_ite]
  split_ifs with hlinked
  · have ht : t ∈ q.buckets (bucket (q.timers t).deadlineNs) :=
      (h.filed.bucketed _ t).mpr ⟨hlinked, rfl⟩
    rw [wp_check ht]
    exact h.unlink ht (bucket_lt _) of_decide_eq_false
  · have hout : t ∉ pending := fun ht => hlinked ((h.filed.member t).mp ht)
    rw [erase_of_not_mem hout]
    exact h

end Changes

section First

theorem Filed.front_le (h : Filed q pending) (hu : u ∈ q.buckets b) :
    rankOf (q.front b) ≤ (q.timerKey u : WithTop Key) := by
  unfold front
  cases hbucket : q.buckets b with
  | nil =>
    rw [hbucket] at hu
    cases hu
  | cons t rest =>
    have hsorted := h.sorted b
    rw [hbucket] at hsorted hu
    obtain rfl | hu := mem_cons.mp hu
    · exact le_rfl
    · exact WithTop.coe_le_coe.mpr ((pairwise_cons.mp hsorted).1 u hu)

theorem Ok.node (h : Ok q pending) {m : ℕ} (hm : 1 ≤ m) (hmn : m < 2 * buckets) :
    (q.key (q.winners m) = none ∧ ∀ b, b < buckets → Below m (buckets + b) → q.buckets b = []) ∨
    ∃ b t, b < buckets ∧ Below m (buckets + b) ∧ q.winners m = b ∧ (q.buckets b).head? = some t ∧
      q.key (q.winners m) = some (q.timerKey t) ∧
      ∀ c, c < buckets → Below m (buckets + c) → ∀ u ∈ q.buckets c, q.timerKey t ≤ q.timerKey u := by
  have hbest := h.tree.best m hm hmn
  obtain ⟨x, hx, hn, hxn, hwon⟩ := hbest.won
  have hleaf : buckets + (x - buckets) = x := by omega
  have hfront := h.fresh (x - buckets) (by omega)
  rw [Fresh, hleaf, ← hwon] at hfront
  have hall : ∀ c, c < buckets → Below m (buckets + c) → ∀ u ∈ q.buckets c,
      rankOf (q.key (q.winners m)) ≤ (q.timerKey u : WithTop Key) := by
    intro c hc hbelow u hu
    refine le_trans ?_ (h.filed.front_le hu)
    rw [← h.fresh c hc]
    exact hbest.least (buckets + c) hbelow (by omega) (by omega)
  cases hkey : q.key (q.winners m) with
  | none =>
    refine .inl ⟨rfl, fun c hc hbelow => eq_nil_iff_forall_not_mem.mpr fun u hu => ?_⟩
    have hle := hall c hc hbelow u hu
    rw [hkey] at hle
    exact absurd (top_le_iff.mp hle) WithTop.coe_ne_top
  | some k =>
    have hwinner : q.winners m = x - buckets := by
      obtain hshape | hshape := h.tree.shape (x - buckets) (by omega) <;> rw [hleaf, ← hwon] at hshape
      · exact hshape
      · rw [hshape, key] at hkey
        cases hkey
    rw [hkey, front, eq_comm, Option.map_eq_some_iff] at hfront
    obtain ⟨t, ht, rfl⟩ := hfront
    refine .inr ⟨_, t, by omega, hleaf.symm ▸ hx, hwinner, ht, rfl, fun c hc hbelow u hu => ?_⟩
    have hle := hall c hc hbelow u hu
    rw [hkey] at hle
    exact WithTop.coe_le_coe.mp hle

/-- Without a winner nothing is pending; with one, the first timer of its bucket comes before all
that are pending. -/
theorem Ok.root (h : Ok q pending) :
    (q.key (q.winners 1) = none ∧ pending = []) ∨
    ∃ t, (q.buckets (q.winners 1)).head? = some t ∧ t ∈ pending ∧ q.winners 1 < buckets ∧
      q.key (q.winners 1) = some (q.timerKey t) ∧ ∀ u ∈ pending, q.timerKey t ≤ q.timerKey u := by
  have hin : ∀ u ∈ pending, u ∈ q.buckets (bucket (q.timers u).deadlineNs) :=
    fun u hu => (h.filed.bucketed _ u).mpr ⟨(h.filed.member u).mp hu, rfl⟩
  have hroot : ∀ b, Below 1 (buckets + b) :=
    fun b => .root (Nat.le_trans (by decide) (Nat.le_add_right buckets b))
  obtain ⟨hnone, hempty⟩ | ⟨b, t, hb, -, rfl, ht, hkey, hleast⟩ := h.node (Nat.le_refl 1) (by decide)
  · refine .inl ⟨hnone, eq_nil_iff_forall_not_mem.mpr fun u hu => ?_⟩
    have hmem := hin u hu
    rw [hempty _ (bucket_lt _) (hroot _)] at hmem
    cases hmem
  · have hmem := (h.filed.mem_bucket (mem_of_mem_head? ht)).1
    exact .inr ⟨t, ht, hmem, hb, hkey, fun u hu => hleast _ (bucket_lt _) (hroot _) u (hin u hu)⟩

theorem timerKey_le (h : q.timerKey t ≤ q.timerKey u) :
    (q.timers t).deadlineNs ≤ (q.timers u).deadlineNs := by
  obtain hlt | heq := Prod.Lex.le_iff.mp h
  · exact hlt.le
  · exact heq.1.le

theorem Ok.nextDeadline (h : Ok q pending) :
    match q.nextDeadline with
    | none => pending = []
    | some d => (∃ t ∈ pending, (q.timers t).deadlineNs = d) ∧
        ∀ u ∈ pending, d ≤ (q.timers u).deadlineNs := by
  unfold CalendarQueue.nextDeadline
  obtain ⟨hnone, hempty⟩ | ⟨t, -, ht, -, hkey, hle⟩ := h.root
  · rw [hnone]
    exact hempty
  · rw [hkey]
    exact ⟨⟨t, ht, rfl⟩, fun u hu => timerKey_le (hle u hu)⟩

end First

end Roanix.Sys.Clock
