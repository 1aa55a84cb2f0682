import Roanix.Mem.Page.Basic

/-! Where the bytes of a page are. `Holds w content` says that the page reads as `content`: it is
zero, the file's, in swap, or in the frame; a clean frame has a second copy to fall back on. -/
namespace Roanix.Mem
open Lib

/-- Neither the frame nor any mapping of it has been stored to since it was filled. -/
def PageFrame.Clean (f : PageFrame) : Prop :=
  f.dirty = false ∧ ∀ mapping ∈ f.mappings, mapping.dirty = false

namespace PageWorld

/-- What stands behind a resident frame. -/
def Behind (w : PageWorld) (f : PageFrame) (content : Page) : Prop :=
  match w.page.residentSwap with
  | none => w.swap = [] ∧ (f.Clean → w.page.pager = some content)
  | some handle => ∃ saved, w.swap = [(handle, saved)] ∧ (f.Clean → saved = content)

def Holds (w : PageWorld) (content : Page) : Prop :=
  match w.page.backing with
  | .zero => content = default ∧ w.page.residentSwap = none ∧ w.swap = []
  | .file => w.page.pager = some content ∧ w.page.residentSwap = none ∧ w.swap = []
  | .swapped handle => w.page.residentSwap = none ∧ w.swap = [(handle, content)]
  | .resident frame => frame.bytes = content ∧ frame.busy = false ∧ w.Behind frame content
  | .busy _ _ => False

def owned (w : PageWorld) : List SwapHandle :=
  (match w.page.backing with
    | .swapped handle => [handle]
    | _ => []) ++ w.page.residentSwap.toList

def Unmapped (w : PageWorld) : Prop := ∀ f, w.page.backing = .resident f → f.mappings = []

/-- What no operation changes: the pager and, mapping the page aside, that it has no mappings. -/
structure Keeps (w w' : PageWorld) : Prop where
  pager : w'.page.pager = w.page.pager
  unmapped : w.Unmapped → w'.Unmapped

structure Gives (w : PageWorld) (content : Page) (w' : PageWorld) : Prop where
  holds : w'.Holds content
  keeps : Keeps w w'

variable {w w' w'' : PageWorld} {content content' : Page} {f f' : PageFrame}

theorem Gives.trans (h : w.Gives content w') (h' : w'.Gives content' w'') : w.Gives content' w'' :=
  ⟨h'.holds, h'.keeps.pager.trans h.keeps.pager, fun hw => h'.keeps.unmapped (h.keeps.unmapped hw)⟩

theorem Holds.gives (h : w.Holds content) : w.Gives content w := ⟨h, rfl, id⟩

theorem Holds.gives_nonresident (h : w'.Holds content) (hpager : w'.page.pager = w.page.pager)
    (hb : ∀ f, w'.page.backing ≠ .resident f) : w.Gives content w' :=
  ⟨h, hpager, fun _ f hf => absurd hf (hb f)⟩

theorem Holds.gives_resident (h : w'.Holds content) (hpager : w'.page.pager = w.page.pager)
    (hb : w'.page.backing = .resident f) (hf : w.Unmapped → f.mappings = []) :
    w.Gives content w' := by
  refine ⟨h, hpager, fun hw f' hf' => ?_⟩
  obtain rfl : f = f' := by simpa [hb] using hf'
  exact hf hw

theorem Behind.mono (h : w.Behind f content) (hclean : f'.Clean → f.Clean) :
    w.Behind f' content := by
  unfold Behind at *
  split at h
  · exact ⟨h.1, fun hf => h.2 (hclean hf)⟩
  · obtain ⟨saved, hswap, hsaved⟩ := h
    exact ⟨saved, hswap, fun hf => hsaved (hclean hf)⟩

theorem Behind.of_not_clean (h : w.Behind f content) (hdirty : ¬ f'.Clean) (content' : Page) :
    w.Behind f' content' := by
  unfold Behind at *
  split at h
  · exact ⟨h.1, fun hf => absurd hf hdirty⟩
  · obtain ⟨saved, hswap, -⟩ := h
    exact ⟨saved, hswap, fun hf => absurd hf hdirty⟩

section
variable (h : w.Holds content)
include h

theorem Holds.resident (hb : w.page.backing = .resident f) :
    f.bytes = content ∧ f.busy = false ∧ w.Behind f content := by
  unfold Holds at h
  rwa [hb] at h

section
variable (hb : w.page.backing = .resident f) (f' : PageFrame) (hbusy : f'.busy = f.busy)
include hb hbusy

theorem Holds.setFrame (hbytes : f'.bytes = f.bytes) (hclean : f'.Clean → f.Clean) :
    Holds { w with page := { w.page with backing := .resident f' } } content := by
  obtain ⟨h1, h2, h3⟩ := h.resident hb
  exact ⟨hbytes.trans h1, hbusy.trans h2, h3.mono hclean⟩

theorem Holds.gives_setFrame (hbytes : f'.bytes = f.bytes) (hclean : f'.Clean → f.Clean)
    (hmaps : f.mappings = [] → f'.mappings = []) :
    w.Gives content { w with page := { w.page with backing := .resident f' } } :=
  (h.setFrame hb f' hbusy hbytes hclean).gives_resident rfl rfl fun hw => hmaps (hw f hb)

theorem Holds.modifyFrame (hdirty : ¬ f'.Clean) (hmaps : f.mappings = [] → f'.mappings = []) :
    w.Gives f'.bytes { w with page := { w.page with backing := .resident f' } } := by
  obtain ⟨-, h2, h3⟩ := h.resident hb
  have hholds : Holds { w with page := { w.page with backing := .resident f' } } f'.bytes :=
    ⟨rfl, hbusy.trans h2, h3.of_not_clean hdirty f'.bytes⟩
  exact hholds.gives_resident rfl rfl fun hw => hmaps (hw f hb)

end

end

end PageWorld

namespace PageFrame

theorem not_clean_of_dirty {f : PageFrame} (h : f.dirty = true) : ¬ f.Clean := by
  intro hc
  rw [hc.1] at h
  cases h

section
variable (f : PageFrame)
include f

@[simp] theorem markUnknown_bytes : f.markUnknown.bytes = f.bytes := by
  unfold markUnknown
  split <;> rfl

@[simp] theorem markUnknown_busy : f.markUnknown.busy = f.busy := by
  unfold markUnknown
  split <;> rfl

@[simp] theorem markUnknown_dirty : f.markUnknown.dirty = f.dirty := by
  unfold markUnknown
  split <;> rfl

@[simp] theorem markUnknown_mappings : f.markUnknown.mappings = f.mappings := by
  unfold markUnknown
  split <;> rfl

@[simp] theorem foldDirty_bytes (d : Bool) : (f.foldDirty d).bytes = f.bytes := by
  cases d <;> rfl

@[simp] theorem foldDirty_busy (d : Bool) : (f.foldDirty d).busy = f.busy := by
  cases d <;> rfl

@[simp] theorem foldDirty_dirty (d : Bool) :
    (f.foldDirty d).dirty = (f.dirty || d) := by
  cases d <;> simp [foldDirty, markDirty]

end

theorem clean_of_removeAllMappings {f : PageFrame} (h : f.removeAllMappings.Clean) : f.Clean := by
  obtain ⟨h, -⟩ := h
  simp only [removeAllMappings, foldDirty_dirty, Bool.or_eq_false_iff, List.any_eq_false] at h
  exact ⟨h.1, fun mapping hm => by simpa using h.2 mapping hm⟩

end PageFrame

namespace PageM
open Act PageWorld
variable {T : Panic → Prop} {w : PageWorld} {content : Page}
variable {E : Error → PageWorld → Prop}

def Granted (answers : PageInAnswers) : Prop :=
  answers.alloc = none ∧ answers.pager = none ∧ answers.load = none

section
variable (answers : PageInAnswers) (location : PageLocation) (h : w.Holds content)
  (hb : ∀ f, w.page.backing ≠ .resident f)
include h hb

theorem pageInFrame_spec :
    wp T (pageInFrame w.page.backing answers)
      (fun loaded w' => w' = { w with page := { w.page with backing := .busy location false } } ∧
        (∀ e, loaded = .error e → ¬ Granted answers) ∧
        ∀ f, loaded = .ok f → f.bytes = content ∧ f.busy = false ∧ f.mappings = [] ∧
          (w.page.backing = .zero → f.dirty = true)) E
      { w with page := { w.page with backing := .busy location false } } := by
  unfold pageInFrame
  cases halloc : answers.alloc with
  | some e =>
    have hnot : ¬ Granted answers := by simp [Granted, halloc]
    exact ⟨rfl, fun _ _ => hnot, fun f hf => by cases hf⟩
  | none =>
    unfold Holds at h
    cases hprev : w.page.backing with
    | resident f => exact absurd hprev (hb f)
    | busy l b =>
      rw [hprev] at h
      exact h.elim
    | zero =>
      rw [hprev] at h
      refine ⟨rfl, (fun e he => by cases he), ?_⟩
      intro f hf
      obtain rfl : (freshFrame default).markDirty = f := by simpa using hf
      exact ⟨h.1.symm, rfl, rfl, fun _ => rfl⟩
    | file =>
      rw [hprev] at h
      simp only [h.1]
      cases hpager : answers.pager with
      | some e =>
        have hnot : ¬ Granted answers := by simp [Granted, hpager]
        exact ⟨rfl, fun _ _ => hnot, fun f hf => by cases hf⟩
      | none =>
        refine ⟨rfl, (fun e he => by cases he), ?_⟩
        intro f hf
        obtain rfl : (freshFrame content).markClean = f := by simpa using hf
        exact ⟨rfl, rfl, rfl, fun hz => by cases hz⟩
    | swapped handle =>
      rw [hprev] at h
      unfold swapLoad
      cases hload : answers.load with
      | some e =>
        have hnot : ¬ Granted answers := by simp [Granted, hload]
        exact ⟨rfl, fun _ _ => hnot, fun f hf => by cases hf⟩
      | none =>
        simp only [wp_bind, wp_get, h.2, List.find?_cons_of_pos, decide_true, wp_pure]
        refine ⟨trivial, (fun e he => by cases he), ?_⟩
        intro f hf
        obtain rfl : (freshFrame content).markClean.markUnknown = f := by simpa using hf
        exact ⟨rfl, rfl, rfl, fun hz => by cases hz⟩

theorem publish_spec (loaded : Except Error PageFrame)
    (hfailed : ∀ e, loaded = .error e → ¬ Granted answers)
    (hloaded : ∀ f, loaded = .ok f → f.bytes = content ∧ f.busy = false ∧ f.mappings = [] ∧
      (w.page.backing = .zero → f.dirty = true)) :
    wp T (publish w.page.backing loaded)
      (fun f w' => w.Gives content w' ∧ w'.page.backing = .resident f)
      (fun _ w' => w.Gives content w' ∧ ¬ Granted answers)
      { w with page := { w.page with backing := .busy location false } } := by
  unfold publish
  cases loaded with
  | error e => exact ⟨h.gives_nonresident rfl hb, hfailed e rfl⟩
  | ok f =>
    obtain ⟨hbytes, hbusy, hmaps, hdirty⟩ := hloaded f rfl
    have hpub : ∀ {w' : PageWorld}, w'.page.pager = w.page.pager →
        w'.page.backing = .resident f.markReferenced → w'.Behind f.markReferenced content →
        w.Gives content w' ∧ w'.page.backing = .resident f.markReferenced := by
      intro w' hpager hb' hbehind
      have hholds : w'.Holds content := by
        unfold Holds
        rw [hb']
        exact ⟨hbytes, hbusy, hbehind⟩
      exact ⟨hholds.gives_resident hpager hb' fun _ => hmaps, hb'⟩
    unfold Holds at h
    cases hprev : w.page.backing with
    | resident f => exact absurd hprev (hb f)
    | busy l b =>
      rw [hprev] at h
      exact h.elim
    | zero =>
      rw [hprev] at h hdirty
      have hnot : ¬ f.markReferenced.Clean := PageFrame.not_clean_of_dirty (hdirty rfl)
      refine hpub rfl rfl ?_
      simp only [Behind, h.2.1]
      exact ⟨h.2.2, fun hc => absurd hc hnot⟩
    | file =>
      rw [hprev] at h
      refine hpub rfl rfl ?_
      simp only [Behind, h.2.1]
      exact ⟨h.2.2, fun _ => h.1⟩
    | swapped handle =>
      rw [hprev] at h
      exact hpub rfl rfl ⟨content, h.2, fun _ => rfl⟩

theorem pageIn_spec :
    wp T (pageIn location answers)
      (fun f w' => w.Gives content w' ∧ w'.page.backing = .resident f)
      (fun _ w' => w.Gives content w' ∧ ¬ Granted answers) w := by
  unfold pageIn setBacking
  simp only [wp_bind, wp_modify]
  apply wp_post (pageInFrame_spec answers location h hb)
  rintro loaded w' ⟨hw, hfailed, hloaded⟩
  subst hw
  exact publish_spec answers location h hb loaded hfailed hloaded

end

theorem residentBacking_spec (answers : PageInAnswers) (h : w.Holds content) :
    wp T (residentBacking answers)
      (fun f w' => w.Gives content w' ∧ w'.page.backing = .resident f)
      (fun _ w' => w.Gives content w' ∧ ¬ Granted answers) w := by
  unfold residentBacking
  rw [wp_bind, wp_get]
  cases hb : w.page.backing with
  | resident f => exact ⟨h.gives, hb⟩
  | busy l b =>
    unfold Holds at h
    rw [hb] at h
    exact h.elim
  | zero | file | swapped handle => exact pageIn_spec answers _ h (by simp [hb])

theorem wp_validateRange {Q : Unit → PageWorld → Prop} {offset length : ℕ}
    (herr : ¬ offset + length ≤ pageSize → E .invalidAddress w)
    (hok : offset + length ≤ pageSize → Q () w) : wp T (validateRange offset length) Q E w := by
  unfold validateRange
  split_ifs with hr
  · exact hok hr.2
  · apply herr
    intro hle
    exact hr ⟨hle.trans_lt (by decide), hle⟩

theorem overwrite_nil (p : Page) (offset : ℕ) : p.overwrite offset [] = p := by
  unfold Page.overwrite
  split
  · simp
  · rfl

section
variable (offset : ℕ) (input : List UInt8) (h : w.Holds content)
include input h

theorem modifyFrame_spec {f : PageFrame} (hb : w.page.backing = .resident f) :
    wp T (modifyFrame f offset input)
      (fun _ w' => w.Gives (content.overwrite offset input) w') E w := by
  have hbytes := (h.resident hb).1
  subst hbytes
  have hgives := h.modifyFrame hb
    { f.markReferenced.markDirty with bytes := f.bytes.overwrite offset input } rfl
    (PageFrame.not_clean_of_dirty rfl) fun h => h
  exact ⟨hgives.holds, hgives.keeps.pager, hgives.keeps.unmapped⟩

theorem fill_spec (answers : PageInAnswers) :
    wp T (do
      let frame ← residentBacking answers
      modifyFrame frame offset input)
      (fun _ w' => w.Gives (content.overwrite offset input) w')
      (fun _ w' => w.Gives content w') w := by
  rw [wp_bind]
  apply wp_imp (residentBacking_spec answers h) _ (fun _ _ h => h.1)
  rintro f w' ⟨h', hb⟩
  apply wp_post (modifyFrame_spec offset input h'.holds hb)
  intro _ w'' h''
  exact h'.trans h''

theorem write_spec (answers : PageInAnswers) :
    wp T (write offset input answers)
      (fun _ w' => w.Gives (content.overwrite offset input) w')
      (fun _ w' => w.Gives content w') w := by
  unfold write
  rw [wp_bind]
  apply wp_validateRange (fun _ => h.gives)
  intro _
  by_cases hlen : input.length = 0
  · rw [if_pos hlen]
    obtain rfl := List.eq_nil_of_length_eq_zero hlen
    rw [overwrite_nil]
    exact h.gives
  · rw [if_neg hlen]
    exact fill_spec offset input h answers

end

section
variable (offset length : ℕ)
include offset length

theorem overwrite_default :
    (default : Page).overwrite offset (List.replicate length 0) = default := by
  unfold Page.overwrite
  split
  · rename_i hr
    have : ∀ (p q : Page), p.bytes = q.bytes → p = q := by
      intro p q hpq
      cases p
      cases q
      simpa using hpq
    apply this
    change List.take _ (List.replicate pageSize 0) ++ _ ++ List.drop _ (List.replicate pageSize 0) =
      List.replicate pageSize 0
    rw [List.take_replicate, List.drop_replicate, List.length_replicate,
      ← List.replicate_add, ← List.replicate_add]
    congr 1
    simp only [List.length_replicate] at hr
    omega
  · rfl

theorem holds_zeroed (h : w.Holds content) (hb : w.page.backing = .zero) :
    w.Holds (content.overwrite offset (List.replicate length 0)) := by
  have hzero := h
  unfold Holds at hzero
  rw [hb] at hzero
  rw [hzero.1, overwrite_default, ← hzero.1]
  exact h

theorem zero_spec (answers : PageInAnswers) (h : w.Holds content) :
    wp T (zero offset length answers)
      (fun _ w' => w.Gives (content.overwrite offset (List.replicate length 0)) w')
      (fun _ w' => w.Gives content w') w := by
  unfold zero
  rw [wp_bind]
  apply wp_validateRange (fun _ => h.gives)
  intro _
  by_cases hlen : length = 0
  · rw [if_pos hlen]
    subst hlen
    rw [List.replicate_zero, overwrite_nil]
    exact h.gives
  · rw [if_neg hlen, wp_bind, wp_get]
    cases hb : w.page.backing with
    | zero => exact (holds_zeroed offset length h hb).gives
    | file | resident f | swapped handle | busy l b => exact fill_spec offset _ h answers

theorem zeroLocked_spec (h : w.Holds content) :
    wp T (zeroLocked offset length)
      (fun _ w' => w.Gives (content.overwrite offset (List.replicate length 0)) w')
      (fun _ w' => w.Gives content w') w := by
  unfold zeroLocked
  rw [wp_bind]
  apply wp_validateRange (fun _ => h.gives)
  intro _
  rw [wp_bind, wp_get]
  cases hb : w.page.backing with
  | zero => exact (holds_zeroed offset length h hb).gives
  | resident f => exact modifyFrame_spec offset _ h hb
  | file | swapped handle | busy l b => exact h.gives

theorem slice_default (h : offset + length ≤ pageSize) :
    (default : Page).slice offset length = List.replicate length 0 := by
  change ((List.replicate pageSize (0 : UInt8)).drop offset).take length = _
  rw [List.drop_replicate, List.take_replicate]
  congr 1
  omega

theorem found_spec {f : PageFrame} (h : w.Holds content) (hb : w.page.backing = .resident f) :
    wp T (do
      setBacking (.resident f.markReferenced)
      return f.bytes.slice offset length)
      (fun bytes w' => w.Gives content w' ∧ bytes = content.slice offset length) E w :=
  ⟨h.gives_setFrame hb f.markReferenced rfl rfl id id, by rw [(h.resident hb).1]⟩

theorem read_spec (answers : PageInAnswers) (h : w.Holds content) :
    wp T (read offset length answers)
      (fun bytes w' => w.Gives content w' ∧ bytes = content.slice offset length)
      (fun _ w' => w.Gives content w' ∧ ¬ (Granted answers ∧ offset + length ≤ pageSize)) w := by
  unfold read
  rw [wp_bind]
  apply wp_validateRange (fun hout => ⟨h.gives, fun hg => hout hg.2⟩)
  intro hrange
  by_cases hlen : length = 0
  · subst hlen
    exact ⟨h.gives, by simp [Page.slice]⟩
  · rw [if_neg hlen, wp_bind, wp_get]
    cases hb : w.page.backing with
    | zero =>
      have hzero := h
      unfold Holds at hzero
      rw [hb] at hzero
      refine ⟨h.gives, ?_⟩
      rw [hzero.1, slice_default offset length hrange]
    | resident f => exact found_spec offset length h hb
    | file | swapped handle | busy l b =>
      rw [wp_bind]
      apply wp_imp (residentBacking_spec answers h) _ (fun _ _ h => ⟨h.1, fun hg => h.2 hg.1⟩)
      rintro f w' ⟨h', hb⟩
      apply wp_post (found_spec offset length h'.holds hb)
      rintro bytes w'' ⟨h'', hbytes⟩
      exact ⟨h'.trans h'', hbytes⟩

end

end PageM
end Roanix.Mem
