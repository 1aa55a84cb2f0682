import Roanix.Fs.NameCache.Basic

/-! What the buckets hold: each entry is in the bucket of its name, alone, and says what the name
means. -/
namespace Roanix.Fs.NameCache
open Function Bucket

section Bucket
variable {β : Type} {b : Bucket β} {parent : VnodeKey} {name : Name} {slot : Fin 8} {e : Entry β}

theorem Bucket.find_some (h : b.find parent name = some slot) :
    ∃ e, b.entries slot = some e ∧ e.Names parent name := by
  have hslot := List.find?_some h
  cases he : b.entries slot with
  | none =>
    rw [he] at hslot
    cases hslot
  | some e =>
    rw [he] at hslot
    exact ⟨e, rfl, of_decide_eq_true hslot⟩

theorem Bucket.find_none (h : b.find parent name = none) (he : b.entries slot = some e) :
    ¬ e.Names parent name := fun hnames => by
  have hslot := List.find?_eq_none.mp h slot (List.mem_finRange slot)
  rw [he] at hslot
  exact hslot (decide_eq_true hnames)

end Bucket

/-- The entries of the cache are right: a name whose entry is here has no writer that took the entry
out. -/
structure CacheOk {β : Type} (cache : Fin 256 → Bucket β) (binding : Binding β)
    (opened : VnodeKey → Name → Prop) : Prop where
  home : ∀ {j slot e}, (cache j).entries slot = some e → bucket e.parent e.name = j
  sole : ∀ {j slot slot' e e'}, (cache j).entries slot = some e →
    (cache j).entries slot' = some e' → e'.Names e.parent e.name → slot' = slot
  fresh : ∀ {j slot e}, (cache j).entries slot = some e → e.target = binding e.parent e.name
  shut : ∀ {j slot e}, (cache j).entries slot = some e → ¬ opened e.parent e.name

section Cache
variable {β : Type} {cache cache' : Fin 256 → Bucket β} {binding binding' : Binding β}
  {opened opened' : VnodeKey → Name → Prop} {d : VnodeKey} {n : Name} {slot : Fin 8} {e : Entry β}

def Kept (cache cache' : Fin 256 → Bucket β) : Prop :=
  ∀ j slot e, (cache' j).entries slot = some e →
    ∃ e₀, (cache j).entries slot = some e₀ ∧ e₀.parent = e.parent ∧ e₀.name = e.name ∧
      e₀.target = e.target

theorem CacheOk.kept (h : CacheOk cache binding opened) (hkept : Kept cache cache') :
    CacheOk cache' binding opened where
  home he := by
    obtain ⟨e₀, he₀, hparent, hname, -⟩ := hkept _ _ _ he
    rw [← hparent, ← hname]
    exact h.home he₀
  sole he he' hnames := by
    obtain ⟨e₀, he₀, hparent, hname, -⟩ := hkept _ _ _ he
    obtain ⟨e₁, he₁, hparent', hname', -⟩ := hkept _ _ _ he'
    refine h.sole he₀ he₁ ⟨?_, ?_⟩
    · rw [hparent', hnames.1, hparent]
    · rw [hname', hnames.2, hname]
  fresh he := by
    obtain ⟨e₀, he₀, hparent, hname, htarget⟩ := hkept _ _ _ he
    rw [← hparent, ← hname, ← htarget]
    exact h.fresh he₀
  shut he := by
    obtain ⟨e₀, he₀, hparent, hname, -⟩ := hkept _ _ _ he
    rw [← hparent, ← hname]
    exact h.shut he₀

theorem kept_update {j : Fin 256} {b : Bucket β} (hb : ∀ slot e, b.entries slot = some e →
    ∃ e₀, (cache j).entries slot = some e₀ ∧ e₀.parent = e.parent ∧ e₀.name = e.name ∧
      e₀.target = e.target) : Kept cache (update cache j b) := by
  intro j' slot e he
  by_cases hj : j' = j
  · subst hj
    rw [update_self] at he
    exact hb slot e he
  · rw [update_of_ne hj] at he
    exact ⟨e, he, rfl, rfl, rfl⟩

theorem kept_touch (j : Fin 256) (slot : Fin 8) :
    Kept cache (update cache j ((cache j).tick.touch slot)) := by
  refine kept_update fun slot' e he => ?_
  by_cases hslot : slot' = slot
  · subst hslot
    simp only [touch, update_self] at he
    obtain ⟨e₀, he₀, rfl⟩ := Option.map_eq_some_iff.mp he
    exact ⟨e₀, he₀, rfl, rfl, rfl⟩
  · simp only [touch, update_of_ne hslot] at he
    exact ⟨e, he, rfl, rfl, rfl⟩

theorem kept_retire (d : VnodeKey) (n : Name) (j : Fin 256) :
    Kept cache (update cache j ((cache j).retire d n)) := by
  refine kept_update fun slot e he => ⟨e, ?_, rfl, rfl, rfl⟩
  unfold Bucket.retire at he
  split at he
  · rename_i slot' _
    by_cases hslot : slot = slot'
    · rw [hslot] at he
      simp only [update_self] at he
      cases he
    · simpa only [update_of_ne hslot] using he
  · exact he

section
variable (h : CacheOk cache binding opened)
include h

theorem CacheOk.retire (d : VnodeKey) (n : Name)
    (hopened : ∀ d' n', opened' d' n' → opened d' n' ∨ d' = d ∧ n' = n) :
    CacheOk (update cache (bucket d n) ((cache (bucket d n)).retire d n)) binding opened' := by
  have hkept := h.kept (kept_retire d n (bucket d n))
  refine { hkept with shut := fun {j slot e} he hno => ?_ }
  obtain hold | ⟨hd, hn⟩ := hopened _ _ hno
  · exact hkept.shut he hold
  · have hj := hkept.home he
    rw [hd, hn] at hj
    subst hj
    rw [update_self] at he
    unfold Bucket.retire at he
    split at he
    · rename_i slot' hfind
      obtain ⟨e', he', hnames'⟩ := Bucket.find_some hfind
      by_cases hslot : slot = slot'
      · rw [hslot] at he
        simp only [update_self] at he
        cases he
      · simp only [update_of_ne hslot] at he
        exact hslot (h.sole he' he ⟨hd.trans hnames'.1.symm, hn.trans hnames'.2.symm⟩)
    · rename_i hfind
      exact find_none hfind he ⟨hd, hn⟩

theorem CacheOk.rebind (hsame : ∀ d n, ¬ opened d n → binding' d n = binding d n) :
    CacheOk cache binding' opened where
  home := h.home
  sole := h.sole
  fresh he := by rw [hsame _ _ (h.shut he), h.fresh he]
  shut := h.shut

theorem CacheOk.weaken (hopened : ∀ d n, opened' d n → opened d n) :
    CacheOk cache binding opened' :=
  { h with shut := fun he hno => h.shut he (hopened _ _ hno) }

end

theorem Bucket.slotFor_of_names {b : Bucket β} (he : b.entries slot = some e) (hnames : e.Names d n)
    (hsole : ∀ {slot' e'}, b.entries slot' = some e' → e'.Names d n → slot' = slot) :
    b.slotFor d n = slot := by
  unfold slotFor
  split
  · rename_i slot' hfind
    obtain ⟨e', he', hnames'⟩ := Bucket.find_some hfind
    exact hsole he' hnames'
  · rename_i hfind
    exact absurd hnames (find_none hfind he)

theorem CacheOk.publish (h : CacheOk cache binding opened) (hshut : ¬ opened d n) :
    CacheOk (update cache (bucket d n) ((cache (bucket d n)).publish d n (binding d n)))
      binding opened := by
  -- An entry is the new one, or was there and has another name.
  have hentry {j : Fin 256} {slot : Fin 8} {e : Entry β} (he : (update cache (bucket d n)
      ((cache (bucket d n)).publish d n (binding d n)) j).entries slot = some e) :
      (j = bucket d n ∧ slot = (cache j).slotFor d n ∧ e.parent = d ∧ e.name = n ∧
          e.target = binding d n) ∨
        (cache j).entries slot = some e ∧ ¬ e.Names d n := by
    by_cases hj : j = bucket d n
    · subst hj
      rw [update_self] at he
      by_cases hslot : slot = (cache (bucket d n)).slotFor d n
      · simp only [Bucket.publish, hslot, update_self] at he
        obtain rfl := Option.some.inj he
        exact .inl ⟨rfl, hslot, rfl, rfl, rfl⟩
      · simp only [Bucket.publish, update_of_ne hslot] at he
        refine .inr ⟨he, fun hnames => hslot ?_⟩
        refine (Bucket.slotFor_of_names he hnames fun he' hnames' => h.sole he he' ?_).symm
        exact ⟨hnames'.1.trans hnames.1.symm, hnames'.2.trans hnames.2.symm⟩
    · rw [update_of_ne hj] at he
      refine .inr ⟨he, fun hnames => hj ?_⟩
      rw [← h.home he, hnames.1, hnames.2]
  refine ⟨fun he => ?_, fun he he' hnames => ?_, fun he => ?_, fun he => ?_⟩
  · obtain ⟨hj, -, hd, hn, -⟩ | ⟨he, -⟩ := hentry he
    · rw [hj, hd, hn]
    · exact h.home he
  · obtain ⟨-, hslot, hd, hn, -⟩ | ⟨he, hne⟩ := hentry he
    · rw [hd, hn] at hnames
      obtain ⟨-, hslot', -⟩ | ⟨-, hne'⟩ := hentry he'
      · rw [hslot, hslot']
      · exact absurd hnames hne'
    · obtain ⟨-, -, hd', hn', -⟩ | ⟨he', -⟩ := hentry he'
      · exact absurd ⟨hnames.1.symm.trans hd', hnames.2.symm.trans hn'⟩ hne
      · exact h.sole he he' hnames
  · obtain ⟨-, -, hd, hn, htarget⟩ | ⟨he, -⟩ := hentry he
    · rw [htarget, hd, hn]
    · exact h.fresh he
  · obtain ⟨-, -, hd, hn, -⟩ | ⟨he, -⟩ := hentry he
    · rw [hd, hn]
      exact hshut
    · exact h.shut he

end Cache

end Roanix.Fs.NameCache
