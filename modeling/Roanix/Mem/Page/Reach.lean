import Roanix.Mem.Page.Transfer

/-! Reclaim and the hardware: frames are given up only while a second copy has the same bytes, and
a dirty bit is folded into the frame before its mapping goes. -/
namespace Roanix.Mem
open Lib PageFrame

attribute [local simp] PageFrame.markReferenced PageFrame.removeAllMappings

namespace PageM
open Act PageWorld
variable {T : Panic → Prop} {E : Error → PageWorld → Prop} {w : PageWorld} {content : Page}

/-- Reclaiming such a page falls back on the file although its slot in swap holds newer bytes. -/
def Hazard (w : PageWorld) : Prop :=
  w.page.pager.isSome ∧ w.page.residentSwap.isSome ∧ ¬ SwapRejected w ∧
    ∃ f, w.page.backing = .resident f ∧ f.Clean ∧ f.wireCount = 0 ∧ f.loanCount = 0

section
variable {f : PageFrame} (answer : Except SwapError SwapHandle) (hbytes : f.bytes = content)
  (hmappings : f.mappings = [])
include hbytes hmappings

theorem evict_spec (hretained : w.page.residentSwap = none) (hswap : w.swap = [])
    (hclean : f.Clean → w.page.pager = some content) :
    wp T (evict f answer) (fun _ w' => w.Gives content w') E w := by
  unfold evict swapStore setBacking
  cases answer with
  | error e =>
    have hback : ∀ generation, w.Gives content { w with page := { w.page with
        backing := .resident { f with busy := false }
        swapRejectGeneration := generation } } := by
      intro generation
      have hbehind : Behind { w with page := { w.page with
          backing := .resident { f with busy := false }
          swapRejectGeneration := generation } } { f with busy := false } content := by
        simp only [Behind, hretained]
        exact ⟨hswap, hclean⟩
      exact Holds.gives_resident ⟨hbytes, rfl, hbehind⟩ rfl rfl fun _ => hmappings
    simp only [wp_bind, wp_pure]
    by_cases he : e = .incompressible
    · rw [if_pos he]
      exact hback _
    · rw [if_neg he]
      exact hback _
  | ok handle =>
    simp only [wp_bind, wp_modify, wp_get]
    refine Holds.gives_nonresident ⟨hretained, ?_⟩ rfl (by simp)
    rw [hswap, hbytes]

theorem releaseFrame_spec (hbehind : w.Behind f content)
    (hsafe : f.dirty = false → w.page.residentSwap.isSome → w.page.pager = none) :
    wp T (releaseFrame f answer) (fun _ w' => w.Gives content w') E w := by
  have hclean : f.dirty = false → f.Clean := fun hd => ⟨hd, by simp [hmappings]⟩
  unfold Behind at hbehind
  unfold releaseFrame
  rw [wp_bind, wp_get]
  by_cases hfile : w.page.pager.isSome ∧ f.dirty = false
  · simp only [if_pos hfile]
    cases hretained : w.page.residentSwap with
    | none =>
      simp only [hretained] at hbehind
      exact Holds.gives_nonresident ⟨hbehind.2 (hclean hfile.2), hretained, hbehind.1⟩ rfl (by simp)
    | some handle =>
      have hnone := hsafe hfile.2 (by rw [hretained]; rfl)
      rw [hnone] at hfile
      cases hfile.1
  · simp only [if_neg hfile]
    -- the page forgets its slot before anything else
    have hunset : ∀ {swap : List (SwapHandle × Page)} {w' : PageWorld},
        Gives { w with page := { w.page with residentSwap := none }, swap } content w' →
          w.Gives content w' := fun h => ⟨h.holds, h.keeps.pager, h.keeps.unmapped⟩
    cases hretained : w.page.residentSwap with
    | none =>
      simp only [hretained] at hbehind
      exact wp_post (evict_spec answer hbytes hmappings rfl hbehind.1 hbehind.2) fun _ _ => hunset
    | some handle =>
      simp only [hretained] at hbehind
      obtain ⟨saved, hswap, hsaved⟩ := hbehind
      by_cases hd : f.dirty = false
      · simp only [if_pos hd]
        refine Holds.gives_nonresident ⟨rfl, ?_⟩ rfl (by simp)
        rw [← hsaved (hclean hd)]
        exact hswap
      · have hlive : handle ∈ w.swap.map Prod.fst := by simp [hswap]
        simp only [if_neg hd, setResidentSwap, swapFree, wp_bind, wp_modify, wp_get, wp_check hlive]
        refine wp_post (evict_spec answer hbytes hmappings rfl ?_ ?_) fun _ _ => hunset
        · simp [hswap]
        · intro hc
          exact absurd hc.1 hd

end

theorem reclaimOwned_spec (answer : Except SwapError SwapHandle)
    (h : w.Holds content) (hsafe : ¬ Hazard w) :
    wp T (reclaimOwned answer) (fun _ w' => w.Gives content w') E w := by
  unfold reclaimOwned
  rw [wp_bind, wp_get]
  cases hb : w.page.backing with
  | zero | file | swapped handle | busy l b => exact h.gives
  | resident f =>
    obtain ⟨hbytes, hbusy, hbehind⟩ := h.resident hb
    by_cases hrej : SwapRejected w
    · simp only [if_pos hrej]
      exact h.gives
    by_cases hheld : f.wireCount ≠ 0 ∨ f.loanCount ≠ 0
    · simp only [if_neg hrej, if_pos hheld]
      exact h.gives
    simp only [if_neg hrej, if_neg hheld]
    have hset := h.gives_setFrame hb f.removeAllMappings (by simp) (by simp)
      clean_of_removeAllMappings fun _ => rfl
    unfold setBacking
    by_cases hrec : f.removeAllMappings.Reclaimable
    swap
    · rw [if_pos hrec]
      exact hset
    rw [if_neg (not_not.mpr hrec)]
    refine wp_post (releaseFrame_spec answer ?_ rfl
      (hbehind.mono clean_of_removeAllMappings) ?_) fun _ _ => hset.trans
    · rw [← hbytes]
      simp [resolveUnknown]
    · intro hd hretained
      by_contra hpager
      rw [not_or, not_not, not_not] at hheld
      have hcleaned : f.removeAllMappings.Clean := ⟨hd, fun mapping hm => by cases hm⟩
      exact hsafe ⟨Option.isSome_iff_ne_none.mpr hpager, hretained, hrej, f, hb,
        clean_of_removeAllMappings hcleaned, hheld⟩

theorem dropSwapLocked_spec (h : w.Holds content) :
    wp T dropSwapLocked (fun _ w' => w.Gives content w') E w := by
  unfold dropSwapLocked
  rw [wp_bind, wp_get]
  dsimp only
  cases hb : w.page.backing with
  | zero | file | swapped handle | busy l b => exact h.gives
  | resident f =>
    obtain ⟨hbytes, hbusy, hbehind⟩ := h.resident hb
    unfold Behind at hbehind
    cases hretained : w.page.residentSwap with
    | none => exact h.gives
    | some handle =>
      simp only [hretained] at hbehind
      obtain ⟨saved, hswap, -⟩ := hbehind
      have hlive : handle ∈ w.swap.map Prod.fst := by simp [hswap]
      simp only [setResidentSwap, swapFree, wp_bind, wp_modify, wp_get, wp_check hlive]
      refine Holds.gives_resident ⟨hbytes, hbusy, ?_, ?_⟩ rfl rfl fun hw => hw f hb
      · simp [hswap]
      · intro hc
        exact absurd hc (not_clean_of_dirty rfl)

theorem onFrame_spec {change : PageFrame → PageFrame}
    (h : w.Holds content) (hb : ∃ f, w.page.backing = .resident f)
    (hchange : ∀ f, (change f).bytes = f.bytes ∧ (change f).busy = f.busy ∧
      ((change f).Clean → f.Clean) ∧ (f.mappings = [] → (change f).mappings = [])) :
    wp T (onFrame change) (fun _ w' => w.Gives content w') E w := by
  obtain ⟨f, hb⟩ := hb
  obtain ⟨hbytes, hbusy, hclean, hmaps⟩ := hchange f
  unfold onFrame
  rw [wp_bind, wp_get, hb]
  exact h.gives_setFrame hb (change f) hbusy hbytes hclean hmaps

theorem enter_spec (writable : Bool) (h : w.Holds content) (hb : ∃ f, w.page.backing = .resident f) :
    wp T (enter writable) (fun _ w' => w'.Holds content ∧ w'.page.pager = w.page.pager) E w := by
  obtain ⟨f, hb⟩ := hb
  unfold enter onFrame
  rw [wp_bind, wp_get, hb]
  refine ⟨h.setFrame hb _ ?_ ?_ fun hc => ?_, rfl⟩
  · split_ifs
    · simp
    · rfl
  · split_ifs
    · simp
    · rfl
  · unfold PageFrame.Clean at hc
    split_ifs at hc
    · simp only [markUnknown_dirty, markUnknown_mappings] at hc
      exact ⟨hc.1, fun mapping hm => hc.2 mapping (List.mem_cons_of_mem _ hm)⟩
    · exact ⟨hc.1, fun mapping hm => hc.2 mapping (List.mem_cons_of_mem _ hm)⟩

theorem clean_of_folded {f f' : PageFrame} (index : ℕ)
    (hdirty : f'.dirty = (f.dirty || f.mappings[index]?.any Mapping.dirty))
    (hkept : ∀ i, i ≠ index → ∀ mapping, f.mappings[i]? = some mapping → mapping ∈ f'.mappings)
    (hc : f'.Clean) : f.Clean := by
  have hd := hc.1
  rw [hdirty, Bool.or_eq_false_iff] at hd
  refine ⟨hd.1, ?_⟩
  intro mapping hm
  obtain ⟨i, hi⟩ := List.mem_iff_getElem?.mp hm
  by_cases hindex : i = index
  · have hleaf := hd.2
    rw [← hindex, hi] at hleaf
    exact hleaf
  · exact hc.2 mapping (hkept i hindex mapping hi)

section
variable (h : w.Holds content)
include h

theorem unmap_spec (index : ℕ) (hb : ∃ f, w.page.backing = .resident f) :
    wp T (unmap index) (fun _ w' => w.Gives content w') E w := by
  apply onFrame_spec h hb
  intro f
  refine ⟨by simp, by simp, ?_, fun hf => by simp [hf]⟩
  apply clean_of_folded index
  · simp
  · intro i hi mapping hm
    simp only [List.mem_eraseIdx_iff_getElem?]
    exact ⟨i, hi, hm⟩

theorem remap_spec (index : ℕ) (writable : Bool) (hb : ∃ f, w.page.backing = .resident f) :
    wp T (remap index writable) (fun _ w' => w.Gives content w') E w := by
  apply onFrame_spec h hb
  intro f
  have hkept : ∀ i, i ≠ index → ∀ mapping, f.mappings[i]? = some mapping →
      mapping ∈ f.mappings.set index ⟨writable, false⟩ := by
    intro i hi mapping hm
    apply List.mem_of_getElem?
    rwa [List.getElem?_set_ne (Ne.symm hi)]
  refine ⟨by split_ifs <;> simp, by split_ifs <;> simp, ?_, fun hf => by simp [hf]⟩
  apply clean_of_folded index
  · split_ifs <;> simp
  · exact hkept

theorem storeThrough_spec {f : PageFrame} {mapping : Mapping} (index offset : ℕ)
    (input : List UInt8) (hb : w.page.backing = .resident f)
    (hm : f.mappings[index]? = some mapping) :
    wp T (storeThrough index offset input)
      (fun _ w' => w.Gives (content.overwrite offset input) w') E w := by
  have hbytes := (h.resident hb).1
  subst hbytes
  unfold storeThrough onFrame
  rw [wp_bind, wp_get, hb]
  refine h.modifyFrame hb
    { f with
      bytes := f.bytes.overwrite offset input
      mappings := f.mappings.modify index fun mapping => { mapping with dirty := true } } rfl
    (fun hc => ?_) fun hf => by simp [hf]
  have hset : { mapping with dirty := true } ∈
      f.mappings.modify index fun mapping => { mapping with dirty := true } := by
    apply List.mem_of_getElem? (i := index)
    simp [hm]
  have := hc.2 _ hset
  cases this

theorem recorded_spec {f f' : PageFrame} (referenced dirty : Bool)
    (hb : w.page.backing = .resident f) (hbytes : f'.bytes = f.bytes) (hbusy : f'.busy = f.busy)
    (hclean : dirty = false → f'.Clean → f.Clean) (hmaps : f.mappings = [] → f'.mappings = []) :
    wp T (recordHardwareState referenced dirty) (fun _ w' => w.Gives content w') E
      { w with page := { w.page with backing := .resident f' } } := by
  unfold recordHardwareState
  cases dirty with
  | true =>
    have hset := h.gives_setFrame hb (if referenced then f'.markReferenced else f').markDirty
      (by cases referenced <;> exact hbusy) (by cases referenced <;> exact hbytes)
      (fun hc => absurd hc (not_clean_of_dirty rfl)) (by cases referenced <;> exact hmaps)
    exact ⟨hset.holds, hset.keeps.pager, hset.keeps.unmapped⟩
  | false =>
    exact h.gives_setFrame hb (if referenced then f'.markReferenced else f')
      (by cases referenced <;> exact hbusy) (by cases referenced <;> exact hbytes)
      (by cases referenced <;> exact hclean rfl) (by cases referenced <;> exact hmaps)

theorem recordHardwareState_spec (referenced dirty : Bool) :
    wp T (recordHardwareState referenced dirty) (fun _ w' => w.Gives content w') E w := by
  cases hb : w.page.backing with
  | resident f =>
    have hset := recorded_spec (T := T) (E := E) h referenced dirty hb rfl rfl (fun _ => id) id
    rwa [← hb] at hset
  | zero | file | swapped handle | busy l b =>
    unfold recordHardwareState
    rw [wp_bind, wp_get, hb]
    exact h.gives

theorem harvest_spec (referenced : Bool) :
    wp T (harvest referenced) (fun _ w' => w.Gives content w') E w := by
  unfold harvest
  rw [wp_bind, wp_get]
  cases hb : w.page.backing with
  | zero | file | swapped handle | busy l b => exact h.gives
  | resident f =>
    refine recorded_spec h referenced _ hb rfl rfl (fun hany hc => ?_) fun hf => by simp [hf]
    rw [List.any_eq_false] at hany
    exact ⟨hc.1, fun mapping hm => by simpa using hany mapping hm⟩

theorem drop_spec :
    wp (fun p => p = .droppingMappedPage ∨ p = .droppingWiredPage) drop
      (fun _ w' => w'.swap = []) E w := by
  unfold drop dropRetained
  unfold Holds at h
  cases hb : w.page.backing with
  | busy l b =>
    rw [hb] at h
    exact h.elim
  | zero | file =>
    rw [hb] at h
    simp only [wp_bind, wp_get, h.2.1, wp_pure, hb]
    exact h.2.2
  | swapped handle =>
    rw [hb] at h
    have hlive : handle ∈ w.swap.map Prod.fst := by simp [h.2]
    simp only [wp_bind, wp_get, h.1, wp_pure, hb, swapFree, wp_check hlive]
    simp [h.2]
  | resident f =>
    rw [hb] at h
    obtain ⟨-, -, hbehind⟩ := h
    have hchecks : ∀ w' : PageWorld, w'.swap = [] →
        wp (fun p => p = .droppingMappedPage ∨ p = .droppingWiredPage)
          (do
            check (f.mappings = []) .droppingMappedPage
            check (f.wireCount = 0) .droppingWiredPage : PageM Unit)
          (fun _ w' => w'.swap = []) E w' := by
      intro w' hw
      rw [wp_bind]
      by_cases hmaps : f.mappings = []
      · rw [wp_check hmaps]
        by_cases hwires : f.wireCount = 0
        · rw [wp_check hwires]
          exact hw
        · rw [check, if_neg hwires]
          exact .inr rfl
      · rw [check, if_neg hmaps]
        exact .inl rfl
    unfold Behind at hbehind
    cases hretained : w.page.residentSwap with
    | none =>
      simp only [hretained] at hbehind
      simp only [wp_bind, wp_get, hretained, wp_pure, hb]
      simpa only [wp_bind] using hchecks w hbehind.1
    | some handle =>
      simp only [hretained] at hbehind
      obtain ⟨saved, hswap, -⟩ := hbehind
      have hlive : handle ∈ w.swap.map Prod.fst := by simp [hswap]
      simp only [wp_bind, wp_get, hretained, setResidentSwap, swapFree, wp_modify, wp_check hlive, hb]
      simpa only [wp_bind] using hchecks _ (by simp [hswap])

end

/-! Runs of a page: transfers, page-in, reclaim and hardware stores in any order. -/
structure Session where
  world : PageWorld
  content : Page

inductive Call where
  | read (offset length : ℕ) (answers : PageInAnswers)
  | write (offset : ℕ) (input : List UInt8) (answers : PageInAnswers)
  | zero (offset length : ℕ) (answers : PageInAnswers)
  | zeroLocked (offset length : ℕ)
  | pageIn (answers : PageInAnswers)
  | reclaimOwned (answer : Except SwapError SwapHandle)
  | dropSwapLocked
  | recordHardwareState (referenced dirty : Bool)
  | harvest (referenced : Bool)
  | enter (writable : Bool)
  | remap (index : ℕ) (writable : Bool)
  | unmap (index : ℕ)
  | storeThrough (index offset : ℕ) (input : List UInt8)
  | wire
  | unwire
  | loan
  | unloan
  | configure (generation : ℕ)

/-- Mappings, wires and loans are of a resident frame; the CPU stores through writable mappings. -/
def Call.Allowed (w : PageWorld) : Call → Prop
  | .enter _ => ∃ f, w.page.backing = .resident f
  | .remap index _ => ∃ f, w.page.backing = .resident f ∧ index < f.mappings.length
  | .unmap index => ∃ f, w.page.backing = .resident f ∧ index < f.mappings.length
  | .storeThrough index offset input => ∃ f mapping, w.page.backing = .resident f ∧
      f.mappings[index]? = some mapping ∧ mapping.writable ∧ offset + input.length ≤ pageSize
  | .wire => ∃ f, w.page.backing = .resident f
  | .unwire => ∃ f, w.page.backing = .resident f ∧ 0 < f.wireCount
  | .loan => ∃ f, w.page.backing = .resident f
  | .unloan => ∃ f, w.page.backing = .resident f ∧ 0 < f.loanCount
  | _ => True

def Call.exec : Call → PageM Unit
  | .read offset length answers => do
    let _ ← PageM.read offset length answers
  | .write offset input answers => PageM.write offset input answers
  | .zero offset length answers => PageM.zero offset length answers
  | .zeroLocked offset length => PageM.zeroLocked offset length
  | .pageIn answers => do
    let _ ← PageM.residentBacking answers
  | .reclaimOwned answer => do
    let _ ← PageM.reclaimOwned answer
  | .dropSwapLocked => do
    let _ ← PageM.dropSwapLocked
  | .recordHardwareState referenced dirty => PageM.recordHardwareState referenced dirty
  | .harvest referenced => PageM.harvest referenced
  | .enter writable => PageM.enter writable
  | .remap index writable => PageM.remap index writable
  | .unmap index => PageM.unmap index
  | .storeThrough index offset input => PageM.storeThrough index offset input
  | .wire => PageM.wire
  | .unwire => PageM.unwire
  | .loan => PageM.loan
  | .unloan => PageM.unloan
  | .configure generation => modify fun w => { w with generation := generation }

def Call.stored (content : Page) : Call → Page
  | .write offset input _ => content.overwrite offset input
  | .zero offset length _ => content.overwrite offset (List.replicate length 0)
  | .zeroLocked offset length => content.overwrite offset (List.replicate length 0)
  | .storeThrough _ offset input => content.overwrite offset input
  | _ => content

/-- Runs from a new page in which every step satisfies a condition. -/
inductive Reachable (ok : PageWorld → Call → Prop) : Session → Prop
  | zero (generation : ℕ) : Reachable ok ⟨⟨.newZeroIn, [], generation⟩, default⟩
  | file (pager : Page) (generation : ℕ) : Reachable ok ⟨⟨.fileIn pager, [], generation⟩, pager⟩
  | done {σ : Session} {c : Call} {w : PageWorld} (hσ : Reachable ok σ) (hc : c.Allowed σ.world)
      (hok : ok σ.world c) (h : c.exec σ.world = .ok () w) : Reachable ok ⟨w, c.stored σ.content⟩
  | failed {σ : Session} {c : Call} {e : Error} {w : PageWorld} (hσ : Reachable ok σ)
      (hc : c.Allowed σ.world) (hok : ok σ.world c) (h : c.exec σ.world = .err e w) :
      Reachable ok ⟨w, σ.content⟩

/-- No page is reclaimed whose file is older than its slot in swap. -/
def Safe (w : PageWorld) : Call → Prop
  | .reclaimOwned _ => ¬ Hazard w
  | _ => True

section
variable {c : Call} (h : w.Holds content) (hc : c.Allowed w)
  (hsafe : Safe w c)
include h hc hsafe

theorem Call.exec_gives (henter : ∀ writable, c ≠ .enter writable) :
    wp (fun _ => False) c.exec (fun _ w' => w.Gives (c.stored content) w')
      (fun _ w' => w.Gives content w') w := by
  cases c with
  | read offset length answers =>
    simp only [exec, wp_bind]
    apply wp_imp (read_spec offset length answers h) _ (fun _ _ h => h.1)
    intro _ _ hread
    exact hread.1
  | write offset input answers => exact write_spec offset input h answers
  | zero offset length answers => exact zero_spec offset length answers h
  | zeroLocked offset length => exact zeroLocked_spec offset length h
  | pageIn answers =>
    simp only [exec, wp_bind]
    apply wp_imp (residentBacking_spec answers h) _ (fun _ _ h => h.1)
    intro _ _ hin
    exact hin.1
  | reclaimOwned answer =>
    simp only [exec, wp_bind]
    exact reclaimOwned_spec answer h hsafe
  | dropSwapLocked =>
    simp only [exec, wp_bind]
    exact dropSwapLocked_spec h
  | recordHardwareState referenced dirty => exact recordHardwareState_spec h referenced dirty
  | harvest referenced => exact harvest_spec h referenced
  | enter writable => exact absurd rfl (henter writable)
  | remap index writable =>
    obtain ⟨f, hb, _⟩ := hc
    exact remap_spec h index writable ⟨f, hb⟩
  | unmap index =>
    obtain ⟨f, hb, _⟩ := hc
    exact unmap_spec h index ⟨f, hb⟩
  | storeThrough index offset input =>
    obtain ⟨f, mapping, hb, hm, _⟩ := hc
    exact storeThrough_spec h index offset input hb hm
  | wire | loan => exact onFrame_spec h hc fun f => ⟨rfl, rfl, id, id⟩
  | unwire | unloan =>
    obtain ⟨f, hb, _⟩ := hc
    exact onFrame_spec h ⟨f, hb⟩ fun f => ⟨rfl, rfl, id, id⟩
  | configure generation => exact ⟨h, rfl, id⟩

theorem Call.exec_spec :
    wp (fun _ => False) c.exec (fun _ w' => w'.Holds (c.stored content))
      (fun _ w' => w'.Holds content) w := by
  by_cases henter : ∃ writable, c = .enter writable
  · obtain ⟨writable, rfl⟩ := henter
    exact wp_post (enter_spec writable h hc) fun _ _ h => h.1
  · exact wp_imp (exec_gives h hc hsafe fun writable hw => henter ⟨writable, hw⟩)
      (fun _ _ h => h.holds) fun _ _ h => h.holds

end

theorem Reachable.holds {σ : Session} (h : Reachable Safe σ) : σ.world.Holds σ.content := by
  induction h with
  | zero generation | file pager generation => exact ⟨rfl, rfl, rfl⟩
  | done hσ hc hok h ih =>
    exact (wp_ok (Call.exec_spec ih hc hok) h :)
  | failed hσ hc hok h ih =>
    exact (wp_err (Call.exec_spec ih hc hok) h :)

/-- The page reads as its contents, its slot in swap may replace a clean frame, and every handle
that swap has given out for it has one owner. -/
structure Preserved (σ : Session) : Prop where
  read : ∀ offset length answers bytes w,
    PageM.read offset length answers σ.world = .ok bytes w → bytes = σ.content.slice offset length
  readable : ∀ offset length, offset + length ≤ pageSize → ∃ w,
    PageM.read offset length ⟨none, none, none⟩ σ.world = .ok (σ.content.slice offset length) w
  backed : ∀ f handle, σ.world.page.backing = .resident f → f.dirty = false → f.mappings = [] →
    σ.world.page.residentSwap = some handle →
      swapLoad handle none σ.world = .ok (.ok f.bytes) σ.world
  owned : σ.world.swap.map Prod.fst = σ.world.owned
  owned_nodup : σ.world.owned.Nodup
  dropped : ∀ w, PageM.drop σ.world = .ok () w → w.swap = []
  droppable : ∀ p, PageM.drop σ.world = .panic p → p = .droppingMappedPage ∨ p = .droppingWiredPage

theorem preserved_of_holds {σ : Session} (h : σ.world.Holds σ.content) : Preserved σ where
  read := by
    intro offset length answers bytes w hrun
    have hread := wp_ok (read_spec (T := fun _ => True) offset length answers h) hrun
    exact hread.2
  readable := by
    intro offset length hrange
    have hread := read_spec (T := fun _ => False) offset length ⟨none, none, none⟩ h
    obtain ⟨bytes, w, hrun, hbytes⟩ := wp_returns (wp_imp hread (fun _ _ h => h)
      (fun _ _ h => h.2 ⟨⟨rfl, rfl, rfl⟩, hrange⟩))
    rw [hrun, hbytes.2]
    exact ⟨w, rfl⟩
  backed := by
    intro f handle hb hdirty hmappings hretained
    obtain ⟨hbytes, -, hbehind⟩ := h.resident hb
    have hclean : f.Clean := ⟨hdirty, by simp [hmappings]⟩
    simp only [Behind, hretained] at hbehind
    obtain ⟨saved, hswap, hsaved⟩ := hbehind
    have hload : wp (fun _ => False) (swapLoad handle none)
        (fun r w => r = .ok f.bytes ∧ w = σ.world) (fun _ _ => False) σ.world := by
      unfold swapLoad
      simp only [wp_bind, wp_get, hswap, List.find?_cons_of_pos, decide_true, wp_pure,
        hsaved hclean, hbytes, true_and]
    obtain ⟨r, w, hrun, rfl, rfl⟩ := wp_returns hload
    exact hrun
  owned := by
    unfold Holds at h
    unfold PageWorld.owned
    cases hb : σ.world.page.backing with
    | busy l b =>
      rw [hb] at h
      exact h.elim
    | zero | file =>
      rw [hb] at h
      simp [h.2.1, h.2.2]
    | swapped handle =>
      rw [hb] at h
      simp [h.1, h.2]
    | resident f =>
      rw [hb] at h
      obtain ⟨-, -, hbehind⟩ := h
      unfold Behind at hbehind
      cases hretained : σ.world.page.residentSwap with
      | none =>
        simp only [hretained] at hbehind
        simp [hbehind.1]
      | some handle =>
        simp only [hretained] at hbehind
        obtain ⟨saved, hswap, -⟩ := hbehind
        simp [hswap]
  owned_nodup := by
    unfold Holds at h
    unfold PageWorld.owned
    cases hb : σ.world.page.backing with
    | swapped handle =>
      rw [hb] at h
      simp [h.1]
    | zero | file | resident f | busy l b => cases σ.world.page.residentSwap <;> simp
  dropped := by
    intro w hrun
    exact (wp_ok (drop_spec (E := fun _ _ => True) h) hrun :)
  droppable := by
    intro p hrun
    exact (wp_panic (drop_spec (E := fun _ _ => True) h) hrun :)

/-- In every run that never reclaims a page whose file is older than its slot in swap, the page
reads as what was stored, and no handle is lost or freed twice. -/
theorem page_content_preserved {σ : Session} (h : Reachable Safe σ) :
    Preserved σ ∧ ∀ c : Call, c.Allowed σ.world → Safe σ.world c →
      ∀ p, c.exec σ.world ≠ .panic p := by
  have hholds := h.holds
  refine ⟨preserved_of_holds hholds, ?_⟩
  intro c hc hsafe p hrun
  exact wp_panic (Call.exec_spec hholds hc hsafe) hrun

def exampleAnswers : PageInAnswers := ⟨none, none, none⟩

def exampleHandle : SwapHandle := .compressed 0

theorem page_content_preserved_example :
    ∃ σ, Reachable Safe σ ∧ σ.world.page.residentSwap = some exampleHandle ∧
      σ.content.slice 0 2 = [7, 0] ∧ Preserved σ := by
  have hnew : Reachable Safe ⟨⟨.newZeroIn, [], 0⟩, default⟩ := .zero 0
  have hwritten := hnew.done (c := .write 0 [7] exampleAnswers) trivial trivial rfl
  have hout := hwritten.done (c := .reclaimOwned (.ok exampleHandle)) trivial
    (fun h => by cases h.1) rfl
  have hin := hout.done (c := .read 0 2 exampleAnswers) trivial trivial rfl
  exact ⟨_, hin, rfl, by decide +kernel, (page_content_preserved hin).1⟩

/-- A page with a pager is written, goes to swap, comes back clean and is reclaimed again: it falls
back on the file, without the byte that was written. -/
theorem page_content_lost :
    ∃ σ, Reachable (fun _ _ => True) σ ∧ σ.content.slice 0 1 = [7] ∧
      ∃ w, PageM.read 0 1 exampleAnswers σ.world = .ok [0] w := by
  have hnew : Reachable (fun _ _ => True) ⟨⟨.fileIn default, [], 0⟩, default⟩ := .file default 0
  have hwritten := hnew.done (c := .write 0 [7] exampleAnswers) trivial trivial rfl
  have hout := hwritten.done (c := .reclaimOwned (.ok exampleHandle)) trivial trivial rfl
  have hin := hout.done (c := .read 0 1 exampleAnswers) trivial trivial rfl
  have hlost := hin.done (c := .reclaimOwned (.ok exampleHandle)) trivial trivial rfl
  exact ⟨_, hlost, by decide +kernel, _, rfl⟩

end PageM
end Roanix.Mem
