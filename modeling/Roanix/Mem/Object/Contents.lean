import Roanix.Lib.File
import Roanix.Mem.Object.Basic
import Roanix.Mem.Page.Reach

/-! The bytes an object shows, and what holds of its pages: each reads as its contents, and those that
lie wholly past the end are zero and not mapped. -/
namespace Roanix.Mem
open Lib List

namespace Page

def byte (p : Page) (k : ℕ) : UInt8 := p.bytes.getD k 0

@[simp] theorem byte_default (k : ℕ) : (default : Page).byte k = 0 := by
  change (replicate pageSize (0 : UInt8)).getD k 0 = 0
  simp only [getD_eq_getElem?_getD, getElem?_replicate]
  split_ifs <;> rfl

theorem byte_overwrite (p : Page) {offset : ℕ} {input : List UInt8}
    (h : offset + input.length ≤ pageSize) (k : ℕ) :
    (p.overwrite offset input).byte k =
      if offset ≤ k then (input[k - offset]?).getD (p.byte k) else p.byte k := by
  have hlen := p.length_eq
  have htake : (p.bytes.take offset).length = offset := by
    rw [length_take]
    omega
  unfold overwrite byte
  rw [dif_pos h]
  simp only [getD_eq_getElem?_getD]
  by_cases hlo : offset ≤ k
  · rw [if_pos hlo]
    by_cases hhi : k < offset + input.length
    · rw [getElem?_append_left (by simp only [length_append]; omega),
        getElem?_append_right (by omega), htake, getElem?_eq_getElem (by omega)]
      rfl
    · rw [getElem?_append_right (by simp only [length_append]; omega),
        getElem?_eq_none (l := input) (by omega), getElem?_drop]
      simp only [length_append, Option.getD_none]
      congr 2
      omega
  · rw [if_neg hlo, append_assoc, getElem?_append_left (by omega),
      getElem?_take_of_lt (by omega)]

theorem getElem?_slice (p : Page) {offset length k : ℕ} (h : offset + length ≤ pageSize)
    (hk : k < length) : (p.slice offset length)[k]? = some (p.byte (offset + k)) := by
  have hlen := p.length_eq
  unfold slice byte
  rw [getElem?_take_of_lt hk, getElem?_drop, getD_eq_getElem?_getD, getElem?_eq_getElem (by omega)]
  rfl

theorem length_slice (p : Page) {offset length : ℕ} (h : offset + length ≤ pageSize) :
    (p.slice offset length).length = length := by
  have hlen := p.length_eq
  simp only [slice, length_take, length_drop]
  omega

end Page

namespace PageWorld

def content (w : PageWorld) : Page :=
  match w.page.backing with
  | .zero => default
  | .file => w.page.pager.getD default
  | .resident frame => frame.bytes
  | .swapped handle => ((w.swap.find? (·.1 = handle)).map Prod.snd).getD default
  | .busy _ _ => default

theorem Holds.content_eq {w : PageWorld} {content : Page} (h : w.Holds content) :
    w.content = content := by
  unfold Holds at h
  unfold PageWorld.content
  cases hb : w.page.backing with
  | zero =>
    rw [hb] at h
    exact h.1.symm
  | file =>
    rw [hb] at h
    simp [h.1]
  | resident f =>
    rw [hb] at h
    exact h.1
  | swapped handle =>
    rw [hb] at h
    simp [h.2]
  | busy l b =>
    rw [hb] at h
    exact h.elim

/-- The page reads as its contents and has no file to fall back on. -/
structure Anonymous (w : PageWorld) : Prop where
  holds : w.Holds w.content
  pager : w.page.pager = none

theorem Anonymous.given {w w' : PageWorld} {content : Page} (h : w.Anonymous)
    (hw : w.Gives content w') : w'.Anonymous :=
  ⟨hw.holds.content_eq.symm ▸ hw.holds, hw.keeps.pager.trans h.pager⟩

def AtHand (w : PageWorld) : Prop :=
  w.page.backing = .zero ∨ ∃ f, w.page.backing = .resident f

end PageWorld

namespace VmObject
variable {o o' o'' : VmObject} {extent index : ℕ} {w w' : PageWorld}

def byteAt (o : VmObject) (i : ℕ) : UInt8 :=
  match o.pages.get (i / pageSize) with
  | none => 0
  | some w => w.content.byte (i % pageSize)

def setPage (o : VmObject) (index : ℕ) (w : PageWorld) : VmObject :=
  { o with pages := o.pages.insert index w }

theorem byteAt_setPage (o : VmObject) (index : ℕ) (w : PageWorld) (i : ℕ) :
    (o.setPage index w).byteAt i =
      if i / pageSize = index then w.content.byte (i % pageSize) else o.byteAt i := by
  unfold byteAt setPage
  rw [Index.get_insert]
  split_ifs <;> rfl

theorem byteAt_of_get (hw : o.pages.get index = some w) {i : ℕ} (hi : i / pageSize = index) :
    o.byteAt i = w.content.byte (i % pageSize) := by
  unfold byteAt
  rw [hi, hw]

/-- The pages up to an extent may be mapped and hold bytes; those beyond it are zero. -/
structure Sound (o : VmObject) (extent : ℕ) : Prop where
  page : ∀ index w, o.pages.get index = some w → w.Anonymous
  hidden : ∀ index w, o.pages.get index = some w → pagesFor extent ≤ index →
    w.content = default ∧ w.Unmapped
  charged : ∀ account, o.account = some account → o.pages.entries.length ≤ account.used

structure Same (o o' : VmObject) : Prop where
  kind : o'.kind = o.kind
  length : o'.length = o.length
  byteAt : ∀ i, o'.byteAt i = o.byteAt i

theorem Same.refl (o : VmObject) : o.Same o := ⟨rfl, rfl, fun _ => rfl⟩

theorem Same.trans (h : o.Same o') (h' : o'.Same o'') : o.Same o'' :=
  ⟨h'.kind.trans h.kind, h'.length.trans h.length, fun i => (h'.byteAt i).trans (h.byteAt i)⟩

theorem Sound.byteAt_hidden (h : o.Sound extent) {i : ℕ} (hi : pagesFor extent ≤ i / pageSize) :
    o.byteAt i = 0 := by
  unfold byteAt
  cases hw : o.pages.get (i / pageSize) with
  | none => rfl
  | some w =>
    dsimp only
    rw [(h.hidden _ w hw hi).1]
    exact Page.byte_default _

theorem Sound.setPage (h : o.Sound extent) (hw : o.pages.get index = some w)
    (hanon : w'.Anonymous) (hhidden : pagesFor extent ≤ index → w'.content = default ∧ w'.Unmapped) :
    (o.setPage index w').Sound extent where
  page := by
    intro k v hv
    unfold VmObject.setPage at hv
    rw [Index.get_insert] at hv
    split_ifs at hv with hk
    · obtain rfl : w' = v := by simpa using hv
      exact hanon
    · exact h.page k v hv
  hidden := by
    intro k v hv hle
    unfold VmObject.setPage at hv
    rw [Index.get_insert] at hv
    split_ifs at hv with hk
    · obtain rfl : w' = v := by simpa using hv
      exact hhidden (hk ▸ hle)
    · exact h.hidden k v hv hle
  charged := by
    intro account ha
    exact (Index.length_insert_of_some hw w').trans_le (h.charged account ha)

theorem Sound.setPage_same (h : o.Sound extent) (hw : o.pages.get index = some w)
    (hgives : w.Gives w.content w') :
    (o.setPage index w').Sound extent ∧ o.Same (o.setPage index w') := by
  constructor
  · apply h.setPage hw ((h.page index w hw).given hgives)
    intro hle
    obtain ⟨hzero, hunmapped⟩ := h.hidden index w hw hle
    exact ⟨hgives.holds.content_eq.trans hzero, hgives.keeps.unmapped hunmapped⟩
  · refine ⟨rfl, rfl, ?_⟩
    intro i
    rw [byteAt_setPage]
    split_ifs with hi
    · rw [hgives.holds.content_eq, byteAt_of_get hw hi]
    · rfl

end VmObject

namespace ObjectM
open Act VmObject
variable {α : Type} {T : Panic → Prop} {o : VmObject} {extent index : ℕ} {w : PageWorld}

theorem wp_onPage {m : PageM α} {Q : α → VmObject → Prop} {E : Error → VmObject → Prop}
    (hw : o.pages.get index = some w)
    (h : wp T m (fun a w' => Q a (o.setPage index w')) (fun e w' => E e (o.setPage index w')) w) :
    wp T (onPage index m) Q E o := by
  unfold wp at *
  unfold onPage
  split at h <;> simp_all only [VmObject.setPage]

theorem onPage_same {m : PageM α} {P : α → PageWorld → Prop} {R : Error → PageWorld → Prop}
    (h : o.Sound extent) (hw : o.pages.get index = some w)
    (hm : wp T m (fun a w' => w.Gives w.content w' ∧ P a w')
      (fun e w' => w.Gives w.content w' ∧ R e w') w) :
    wp T (onPage index m)
      (fun a o' => o'.Sound extent ∧ o.Same o' ∧ ∃ w', o' = o.setPage index w' ∧ P a w')
      (fun e o' => o'.Sound extent ∧ o.Same o' ∧ ∃ w', o' = o.setPage index w' ∧ R e w') o := by
  apply wp_onPage hw
  apply wp_imp hm
  · rintro a w' ⟨hgives, hp⟩
    obtain ⟨hsound, hsame⟩ := h.setPage_same hw hgives
    exact ⟨hsound, hsame, w', rfl, hp⟩
  · rintro e w' ⟨hgives, hp⟩
    obtain ⟨hsound, hsame⟩ := h.setPage_same hw hgives
    exact ⟨hsound, hsame, w', rfl, hp⟩

variable {limit offset position : ℕ} {bytes : List UInt8}

def Agrees (o : VmObject) (offset : ℕ) (bytes : List UInt8) : Prop :=
  ∀ k < bytes.length, bytes[k]? = some (o.byteAt (offset + k))

theorem Agrees.append {more : List UInt8} (h : Agrees o offset bytes)
    (h' : Agrees o (offset + bytes.length) more) : Agrees o offset (bytes ++ more) := by
  intro k hk
  by_cases hlo : k < bytes.length
  · rw [getElem?_append_left hlo]
    exact h k hlo
  · rw [length_append] at hk
    rw [getElem?_append_right (by omega), h' (k - bytes.length) (by omega)]
    congr 2
    omega

theorem div_mod_of_within {count k : ℕ} (hc : position % pageSize + count ≤ pageSize)
    (hk : k < count) : (position + k) / pageSize = position / pageSize ∧
      (position + k) % pageSize = position % pageSize + k := by
  unfold pageSize pageShift at *
  omega

section
variable (hl : position % pageSize + limit ≤ pageSize)
include hl

theorem agrees_hole (hw : o.pages.get (position / pageSize) = none) :
    Agrees o position (List.replicate limit 0) := by
  intro k hk
  rw [length_replicate] at hk
  obtain ⟨hdiv, -⟩ := div_mod_of_within hl hk
  rw [getElem?_replicate, if_pos hk]
  unfold VmObject.byteAt
  rw [hdiv, hw]

theorem agrees_slice (hw : o.pages.get (position / pageSize) = some w) :
    Agrees o position (w.content.slice (position % pageSize) limit) := by
  intro k hk
  rw [Page.length_slice _ hl] at hk
  obtain ⟨hdiv, hmod⟩ := div_mod_of_within hl hk
  rw [Page.getElem?_slice _ hl hk, byteAt_of_get hw hdiv, hmod]

def AllGranted (answers : ℕ → PageInAnswers) : Prop := ∀ index, PageM.Granted (answers index)

theorem readPage_spec (answers : PageInAnswers) (h : o.Sound extent)
    (hw : o.pages.get (position / pageSize) = some w) :
    wp T (onPage (position / pageSize) (PageM.read (position % pageSize) limit answers))
      (fun bytes o' => o'.Sound extent ∧ o.Same o' ∧ bytes.length = limit ∧ Agrees o position bytes)
      (fun _ o' => o'.Sound extent ∧ o.Same o' ∧ ¬ PageM.Granted answers) o := by
  apply wp_imp (onPage_same h hw
    (PageM.read_spec (position % pageSize) limit answers (h.page _ w hw).holds))
  · rintro bytes o' ⟨hsound, hsame, w', _, hbytes⟩
    subst hbytes
    exact ⟨hsound, hsame, Page.length_slice _ hl, agrees_slice hl hw⟩
  · rintro e o' ⟨hsound, hsame, w', _, hreason⟩
    exact ⟨hsound, hsame, fun hg => hreason ⟨hg, hl⟩⟩

end

theorem readLoop_spec (offset total : ℕ) (answers : ℕ → PageInAnswers) :
    ∀ (fuel : ℕ) (out : List UInt8) (o : VmObject), o.Sound extent → out.length ≤ total →
      total ≤ out.length + fuel → Agrees o offset out →
      wp T (readLoop offset total answers fuel out)
        (fun bytes o' => o'.Sound extent ∧ o.Same o' ∧ bytes.length ≤ total ∧
          Agrees o offset bytes ∧ (AllGranted answers → bytes.length = total))
        (fun _ o' => o'.Sound extent ∧ o.Same o' ∧
          ¬ (AllGranted answers ∧ offset + total ≤ 2 ^ 64)) o := by
  intro fuel
  induction fuel with
  | zero =>
    intro out o h hle hfuel hout
    unfold readLoop
    rw [wp_bind, wp_check (by omega)]
    exact ⟨h, .refl o, hle, hout, fun _ => by omega⟩
  | succ fuel ih =>
    intro out o h hle hfuel hout
    unfold readLoop
    by_cases hdone : total ≤ out.length
    · rw [if_pos hdone]
      exact ⟨h, .refl o, hle, hout, fun _ => by omega⟩
    rw [if_neg hdone]
    by_cases hover : 2 ^ 64 ≤ offset + out.length
    · rw [if_pos hover]
      exact ⟨h, .refl o, fun hg => by omega⟩
    rw [if_neg hover, wp_bind, wp_get]
    have hmod : (offset + out.length) % pageSize < pageSize := Nat.mod_lt _ (by decide)
    generalize hlimit : min (pageSize - (offset + out.length) % pageSize) (total - out.length) =
      limit
    have hfit : (offset + out.length) % pageSize + limit ≤ pageSize := by omega
    cases hw : o.pages.get ((offset + out.length) / pageSize) with
    | none =>
      apply ih
      · exact h
      · simp only [length_append, length_replicate]
        omega
      · simp only [length_append, length_replicate]
        omega
      · exact hout.append (agrees_hole hfit hw)
    | some w =>
      rw [wp_bind, wp_attempt]
      apply wp_imp (readPage_spec hfit _ h hw)
      · rintro bytes o' ⟨hsound, hsame, hlen, hbytes⟩
        apply wp_imp (ih (out ++ bytes) o' hsound _ _ _)
        · rintro all o'' ⟨hsound', hsame', hall, hagrees, hfull⟩
          refine ⟨hsound', hsame.trans hsame', hall, ?_, hfull⟩
          intro k hk
          rw [hagrees k hk, hsame.byteAt]
        · rintro e o'' ⟨hsound', hsame', hreason⟩
          exact ⟨hsound', hsame.trans hsame', hreason⟩
        · rw [length_append]
          omega
        · rw [length_append]
          omega
        · intro k hk
          rw [(hout.append hbytes) k hk, hsame.byteAt]
      · rintro e o' ⟨hsound, hsame, hnot⟩
        split_ifs with hnil
        · exact ⟨hsound, hsame, fun hg => hnot (hg.1 _)⟩
        · exact ⟨hsound, hsame, hle, hout, fun hg => absurd (hg _) hnot⟩

theorem readAt_spec (offset total : ℕ) (answers : ℕ → PageInAnswers) (h : o.Sound extent) :
    wp T (readAt offset total answers)
      (fun bytes o' => o'.Sound extent ∧ o.Same o' ∧ bytes.length ≤ total ∧
        Agrees o offset bytes ∧ (AllGranted answers → bytes.length = total))
      (fun _ o' => o'.Sound extent ∧ o.Same o' ∧
        ¬ (AllGranted answers ∧ offset + total ≤ 2 ^ 64)) o :=
  readLoop_spec offset total answers total [] o h (by simp) (by simp) (fun k hk => by simp at hk)

/-! The page that the end of an object cuts: held, unmapped and cleared before more of it comes
into sight. -/
open PageWorld
variable {content : Page} {count size tail : ℕ} {E : Error → VmObject → Prop}

theorem removeMappings_spec {E : Error → PageWorld → Prop} (h : w.Holds content) :
    wp T removeMappings
      (fun _ w' => w.Gives content w' ∧ (w.AtHand → w'.AtHand)) E w := by
  unfold removeMappings
  rw [wp_bind, wp_get]
  cases hb : w.page.backing with
  | resident f =>
    refine ⟨h.gives_setFrame hb f.removeAllMappings ?_ ?_ PageFrame.clean_of_removeAllMappings
      fun _ => rfl, fun _ => .inr ⟨_, rfl⟩⟩
    · exact PageFrame.foldDirty_busy f _
    · exact PageFrame.foldDirty_bytes f _
  | zero | file | swapped handle | busy l b => exact ⟨h.gives, fun hw => hw⟩

theorem zeroLocked_succeeds (hr : tail + count ≤ pageSize) (hw : w.AtHand) :
    wp (fun _ => True) (PageM.zeroLocked tail count) (fun _ _ => True) (fun _ _ => False) w := by
  unfold PageM.zeroLocked
  rw [wp_bind]
  refine PageM.wp_validateRange (fun hout => absurd hr hout) fun _ => ?_
  rw [wp_bind, wp_get]
  obtain hb | ⟨f, hb⟩ := hw
  · rw [hb]
    trivial
  · rw [hb]
    trivial

theorem pin_spec (answers : PageInAnswers) (h : o.Sound extent) :
    wp T (pin index answers)
      (fun _ o' => o'.Sound extent ∧ o.Same o' ∧ ∀ w, o'.pages.get index = some w → w.AtHand)
      (fun _ o' => o'.Sound extent ∧ o.Same o') o := by
  unfold pin
  rw [wp_bind, wp_get]
  cases hw : o.pages.get index with
  | none => exact ⟨h, .refl o, fun w hw' => by simp [hw] at hw'⟩
  | some w =>
    dsimp only
    split_ifs with hzero
    · refine ⟨h, .refl o, ?_⟩
      intro w' hw'
      obtain rfl : w = w' := by simpa [hw] using hw'
      exact .inl hzero
    · apply wp_imp (onPage_same (P := fun _ w' => w'.AtHand)
        (R := fun _ _ => ¬ PageM.Granted answers) h hw _)
      · rintro _ o' ⟨hsound, hsame, w', ho', hhand⟩
        refine ⟨hsound, hsame, ?_⟩
        intro v hv
        subst ho'
        obtain rfl : w' = v := by simpa [VmObject.setPage] using hv
        exact hhand
      · rintro _ o' ⟨hsound, hsame, _⟩
        exact ⟨hsound, hsame⟩
      · rw [wp_bind]
        apply wp_post (PageM.residentBacking_spec answers (h.page _ w hw).holds)
        rintro f w' ⟨hgives, hb⟩
        exact ⟨hgives, .inr ⟨f, hb⟩⟩

theorem byte_cleared (p : Page) (hr : tail + count ≤ pageSize) (k : ℕ) :
    (p.overwrite tail (List.replicate count 0)).byte k =
      if tail ≤ k ∧ k < tail + count then 0 else p.byte k := by
  rw [Page.byte_overwrite p (by simpa using hr), List.getElem?_replicate]
  split_ifs <;> first | rfl | omega

theorem clearTail_spec (h : o.Sound extent) (hr : tail + count ≤ pageSize)
    (hhand : ∀ w, o.pages.get index = some w → w.AtHand) :
    wp T (clearTail index tail count)
      (fun _ o' => o'.Sound extent ∧ o'.kind = o.kind ∧ o'.length = o.length ∧ ∀ i, o'.byteAt i =
        if i / pageSize = index ∧ tail ≤ i % pageSize ∧ i % pageSize < tail + count then 0
        else o.byteAt i) E o := by
  unfold clearTail
  rw [wp_bind, wp_get]
  cases hw : o.pages.get index with
  | none =>
    refine ⟨h, rfl, rfl, ?_⟩
    intro i
    split_ifs with hi
    · unfold VmObject.byteAt
      rw [hi.1, hw]
    · rfl
  | some w =>
    rw [wp_bind]
    apply wp_onPage hw
    have hanon := h.page _ w hw
    apply wp_imp (removeMappings_spec hanon.holds) _
      (fun _ _ h => False.elim h)
    rintro _ w₁ ⟨hgives, hhand₁⟩
    rw [wp_bind, wp_attempt]
    have hget : (o.setPage index w₁).pages.get index = some w₁ := by simp [VmObject.setPage]
    apply wp_onPage hget
    have hzero := wp_and (PageM.zeroLocked_spec (T := T) tail count hgives.holds)
      (zeroLocked_succeeds hr (hhand₁ (hhand w hw)))
    apply wp_imp hzero _ (fun _ _ h => h.2.elim)
    rintro _ w₂ ⟨hgives₂, _⟩
    replace hgives := hgives.trans hgives₂
    have hcontent := hgives.holds.content_eq
    have hsame : (o.setPage index w₁).setPage index w₂ = o.setPage index w₂ := by
      unfold VmObject.setPage
      congr 1
      apply Index.ext_get
      intro k
      simp only [Index.get_insert]
      split_ifs <;> rfl
    rw [hsame]
    refine ⟨h.setPage hw (hanon.given hgives) ?_, rfl, rfl, ?_⟩
    · intro hle
      obtain ⟨hdefault, hunmapped⟩ := h.hidden index w hw hle
      refine ⟨?_, hgives.keeps.unmapped hunmapped⟩
      rw [hcontent, hdefault, PageM.overwrite_default]
    · intro i
      rw [byteAt_setPage, hcontent]
      by_cases hi : i / pageSize = index
      · rw [if_pos hi, byte_cleared _ hr]
        simp only [hi, true_and, byteAt_of_get hw hi]
      · rw [if_neg hi, if_neg (fun h => hi h.1)]

/-- What was past an end is zero up to a new one; what was before it is as it was. -/
structure Exposed (o o' : VmObject) (size newSize : ℕ) : Prop where
  kind : o'.kind = o.kind
  length : o'.length = o.length
  below : ∀ i < size, o'.byteAt i = o.byteAt i
  clear : ∀ i, size ≤ i → i < newSize → o'.byteAt i = 0

theorem cut_or_hidden {i : ℕ} (h : size ≤ i) :
    (size % pageSize ≠ 0 ∧ i / pageSize = size / pageSize ∧ size % pageSize ≤ i % pageSize) ∨
      pagesFor size ≤ i / pageSize := by
  unfold pagesFor pageSize pageShift
  omega

theorem pinTail_spec (size : ℕ) (answers : PageInAnswers) (h : o.Sound extent) :
    wp T (pinTail size answers)
      (fun _ o' => o'.Sound extent ∧ o.Same o' ∧ (size % pageSize ≠ 0 →
        ∀ w, o'.pages.get (size / pageSize) = some w → w.AtHand))
      (fun _ o' => o'.Sound extent ∧ o.Same o') o := by
  unfold pinTail
  split_ifs with htail
  · exact ⟨h, .refl o, fun hne => absurd htail hne⟩
  · apply wp_post (pin_spec answers h)
    rintro _ o' ⟨hsound, hsame, hhand⟩
    exact ⟨hsound, hsame, fun _ => hhand⟩

theorem clearFrom_spec (h : o.Sound extent) (hr : size % pageSize + count ≤ pageSize)
    (hhand : size % pageSize ≠ 0 → ∀ w, o.pages.get (size / pageSize) = some w → w.AtHand) :
    wp T (clearFrom size count)
      (fun _ o' => o'.Sound extent ∧ o'.kind = o.kind ∧ o'.length = o.length ∧
        (∀ i < size, o'.byteAt i = o.byteAt i) ∧
        (size % pageSize ≠ 0 → ∀ i, i / pageSize = size / pageSize →
          size % pageSize ≤ i % pageSize → i % pageSize < size % pageSize + count →
            o'.byteAt i = 0)) E o := by
  unfold clearFrom
  split_ifs with htail
  · exact ⟨h, rfl, rfl, fun _ _ => rfl, fun hne => absurd htail hne⟩
  · apply wp_post (clearTail_spec h hr (hhand htail))
    rintro _ o' ⟨hsound, hkind, hlength, hbytes⟩
    refine ⟨hsound, hkind, hlength, ?_, ?_⟩
    · intro i hi
      rw [hbytes i, if_neg]
      unfold pageSize pageShift
      omega
    · intro _ i hdiv hlo hhi
      rw [hbytes i, if_pos ⟨hdiv, hlo, hhi⟩]

theorem expose_spec {newSize : ℕ} {answers : PageInAnswers} {R : VmObject → Prop} (h : o.Sound size)
    (hok : ∀ o', o'.Sound size → Exposed o o' size newSize → R o')
    (herr : ∀ e o', o'.Sound size → o.Same o' → E e o') :
    wp T (pinTail size answers)
      (fun _ o' => wp T (clearFrom size (min (newSize - size) (pageSize - size % pageSize)))
        (fun _ o'' => R o'') E o') E o := by
  have hmod : size % pageSize < pageSize := Nat.mod_lt _ (by decide)
  apply wp_imp (pinTail_spec size answers h) _ (fun e o' h => herr e o' h.1 h.2)
  rintro _ o₁ ⟨hsound₁, hsame₁, hhand⟩
  apply wp_post (clearFrom_spec hsound₁ (by omega) hhand)
  rintro _ o₂ ⟨hsound₂, hkind₂, hlength₂, hbelow, hclear⟩
  apply hok o₂ hsound₂
  refine ⟨hkind₂.trans hsame₁.kind, hlength₂.trans hsame₁.length, ?_, ?_⟩
  · intro i hi
    rw [hbelow i hi, hsame₁.byteAt]
  · intro i hlo hhi
    obtain ⟨htail, hdiv, hle⟩ | hhidden := cut_or_hidden hlo
    · apply hclear htail i hdiv hle
      unfold pageSize pageShift at *
      omega
    · exact hsound₂.byteAt_hidden hhidden

end ObjectM
end Roanix.Mem
