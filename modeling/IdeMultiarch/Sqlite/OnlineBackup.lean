import IdeMultiarch.Sqlite.PageCopy

/-!
# Sqlite - what a copied page is worth

A page that was copied stays equal to that of the source, whatever other users of the source do:
the pager tells the copy about each page that it writes, and where it cannot, the copy begins again.

Main results:

- Theorems {lit}`backupOnePage_of_page` and {lit}`backupOnePage_byte_of_other`: what copying a page
  writes.
- Theorem {lit}`Agrees.copyPage`: a page that is copied, or copied again, agrees with the source.
- Theorem {lit}`Agrees.finishDest_isCopy`: when all pages agree, the destination becomes a copy.
-/

namespace IdeMultiarch
namespace Sqlite

open Library (Image add_div_of_dvd add_mod_of_dvd)

/-! ## Page sizes -/

namespace PageSize

variable (size size' : PageSize)

theorem bytes_pos : 0 < size.bytes :=
  Nat.two_pow_pos _

/-- The header of a database fits into the first page. -/
theorem header_le_bytes : 512 ≤ size.bytes :=
  Nat.pow_le_pow_right (n := 2) Nat.two_pos size.lower

/-- The bytes for locks begin with a page. -/
theorem bytes_dvd_pending : size.bytes ∣ PENDING_BYTE :=
  Nat.pow_dvd_pow 2 (size.upper.trans (by decide : 16 ≤ 30))

theorem bytes_dvd_of_le (h : size.bytes ≤ size'.bytes) : size.bytes ∣ size'.bytes :=
  Nat.pow_dvd_pow 2 ((Nat.pow_le_pow_iff_right (by decide)).mp h)

end PageSize

namespace PageSizes

variable (z : PageSizes)

/-- How much of a page is written at once. -/
def chunk : Nat :=
  min z.src.bytes z.dest.bytes

theorem header_le_chunk : 512 ≤ z.chunk :=
  le_min z.src.header_le_bytes z.dest.header_le_bytes

theorem chunk_le_dest : z.chunk ≤ z.dest.bytes :=
  Nat.min_le_right _ _

theorem chunk_dvd_src : z.chunk ∣ z.src.bytes := by
  rcases Nat.le_total z.src.bytes z.dest.bytes with h | h
  · rw [chunk, Nat.min_eq_left h]
  · rw [chunk, Nat.min_eq_right h]
    exact z.dest.bytes_dvd_of_le z.src h

theorem chunk_dvd_dest : z.chunk ∣ z.dest.bytes := by
  rcases Nat.le_total z.src.bytes z.dest.bytes with h | h
  · rw [chunk, Nat.min_eq_left h]
    exact z.src.bytes_dvd_of_le z.dest h
  · rw [chunk, Nat.min_eq_right h]

end PageSizes

/-! ## What is copied -/

/-- The fields of the header that a copy has for itself: the format, the change counter and the
number of pages, the cookie of the schema, and who wrote the header last. -/
def HeaderField (off : Nat) : Prop :=
  (18 ≤ off ∧ off < 20) ∨ (24 ≤ off ∧ off < 32) ∨ (40 ≤ off ∧ off < 44) ∨ (92 ≤ off ∧ off < 100)

/-- An offset is neither on the page of the source that is never used, nor on that of the
destination. -/
structure Shared (z : PageSizes) (off : Nat) : Prop where
  src : off / z.src.bytes + 1 ≠ pendingBytePage z.src
  dest : off / z.dest.bytes + 1 ≠ pendingBytePage z.dest

/-- The first pages of the source are in the destination. -/
structure Agrees (z : PageSizes) (pages : Pages) (limit : Nat) (dest : Image) : Prop where
  within : ∀ off < limit * z.src.bytes, Shared z off → off < dest.size
  byte : ∀ off < limit * z.src.bytes, Shared z off → ¬ HeaderField off →
    ∀ data, pages.page (off / z.src.bytes + 1) = some data →
      dest.byte off = data (off % z.src.bytes)

/-- Offsets at which the rounds of {lit}`backupOnePage` write. -/
def Spans (z : PageSizes) (n iOff off : Nat) : Prop :=
  ∃ m < n, iOff + m * z.dest.bytes ≤ off ∧ off < iOff + m * z.dest.bytes + z.chunk

section Copy

variable {z : PageSizes} {put : Nat → PageAnswer} {zSrcData : Page} {header : Option UInt32}
variable {n iOff off i : Nat} {dest : Image}

/-! ## One chunk -/

theorem put4byte_size_le (image : Image) (off : Nat) (value : UInt32) :
    image.size ≤ (put4byte image off value).size :=
  Nat.le_max_left _ _

theorem put4byte_byte {image : Image} {field : Nat} {value : UInt32}
    (hout : ¬ (field ≤ off ∧ off < field + 4)) :
    (put4byte image field value).byte off = image.byte off :=
  Image.overlay_byte_of_not_mem hout

theorem putPageCount_size_le (header : Option UInt32) (iOff : Nat) (dest : Image) :
    dest.size ≤ (putPageCount header iOff dest).size := by
  unfold putPageCount
  split
  · split
    · exact put4byte_size_le _ _ _
    · exact Nat.le_refl _
  · exact Nat.le_refl _

/-- The number of pages is in the header, which is written with the first chunk. -/
theorem putPageCount_byte (hout : ¬ (iOff = 0 ∧ 28 ≤ off ∧ off < 32)) :
    (putPageCount header iOff dest).byte off = dest.byte off := by
  unfold putPageCount
  split
  · split
    next hfirst => exact put4byte_byte fun hin => hout ⟨hfirst, hin⟩
    next => rfl
  · rfl

/-- A chunk is written where it is read. -/
theorem chunk_start (z : PageSizes) (iOff : Nat) :
    (iOff / z.dest.bytes + 1 - 1) * z.dest.bytes + iOff % z.dest.bytes = iOff := by
  rw [Nat.add_sub_cancel, Nat.mul_comm, Nat.div_add_mod]

theorem copyChunk_eq (z : PageSizes) (zSrcData : Page) (header : Option UInt32) (iOff : Nat)
    (dest : Image) :
    copyChunk z zSrcData header iOff dest = putPageCount header iOff
      ((dest.extend ((iOff / z.dest.bytes + 1) * z.dest.bytes)).overlay iOff z.chunk fun j =>
        zSrcData (iOff % z.src.bytes + j)) := by
  unfold copyChunk
  dsimp only
  rw [chunk_start]
  rfl

theorem copyChunk_size_le : dest.size ≤ (copyChunk z zSrcData header iOff dest).size := by
  rw [copyChunk_eq]
  refine le_trans ?_ (putPageCount_size_le _ _ _)
  rw [Image.overlay_size, Image.extend_size]
  omega

/-- What a chunk consists of is written. -/
theorem copyChunk_of_mem (zSrcData : Page) (header : Option UInt32) (dest : Image)
    (hchunk : z.chunk ∣ iOff) (hstart : iOff ≤ off) (hend : off < iOff + z.chunk) :
    off < (copyChunk z zSrcData header iOff dest).size ∧
      (¬ HeaderField off → (copyChunk z zSrcData header iOff dest).byte off =
        zSrcData (off % z.src.bytes)) := by
  obtain ⟨j, rfl⟩ := Nat.exists_eq_add_of_le hstart
  have hj : j < z.chunk := by omega
  have hsize : iOff + j < ((dest.extend ((iOff / z.dest.bytes + 1) * z.dest.bytes)).overlay iOff
      z.chunk fun j => zSrcData (iOff % z.src.bytes + j)).size := by
    rw [Image.overlay_size]
    omega
  rw [copyChunk_eq]
  refine ⟨hsize.trans_le (putPageCount_size_le _ _ _), fun hfield => ?_⟩
  rw [putPageCount_byte, Image.overlay_byte_of_mem hstart hend,
    add_mod_of_dvd hchunk z.chunk_dvd_src hj, Nat.add_sub_cancel_left]
  rintro ⟨-, hcount⟩
  exact hfield (Or.inr (Or.inl ⟨by omega, hcount.2⟩))

/-- Nothing else changes. -/
theorem copyChunk_byte_of_not_mem (hout : ¬ (iOff ≤ off ∧ off < iOff + z.chunk)) :
    (copyChunk z zSrcData header iOff dest).byte off = dest.byte off := by
  have hheader := z.header_le_chunk
  rw [copyChunk_eq, putPageCount_byte, Image.overlay_byte_of_not_mem hout, Image.extend_byte]
  rintro ⟨rfl, hcount⟩
  exact hout (by omega)

/-! ## One page -/

theorem backupOnePageFrom_size_le (n iOff : Nat) (dest : Image) :
    dest.size ≤ (backupOnePageFrom z put zSrcData header n iOff dest).2.size := by
  induction n generalizing iOff dest with
  | zero => exact Nat.le_refl _
  | succ n ih =>
      rw [backupOnePageFrom]
      split
      · exact ih _ _
      · split
        · exact Nat.le_refl _
        · exact copyChunk_size_le.trans (ih _ _)

theorem Spans.succ (h : Spans z n (iOff + z.dest.bytes) off) : Spans z (n + 1) iOff off := by
  obtain ⟨m, hm, hstart, hend⟩ := h
  refine ⟨m + 1, by omega, ?_, ?_⟩
  · rw [Nat.succ_mul]
    omega
  · rw [Nat.succ_mul]
    omega

/-- An offset is in the first chunk or in one of the others. -/
theorem spans_succ : Spans z (n + 1) iOff off ↔
    (iOff ≤ off ∧ off < iOff + z.chunk) ∨ Spans z n (iOff + z.dest.bytes) off := by
  constructor
  · rintro ⟨m, hm, hstart, hend⟩
    cases m with
    | zero => exact Or.inl (by omega)
    | succ m =>
        rw [Nat.succ_mul] at hstart hend
        exact Or.inr ⟨m, by omega, by omega, by omega⟩
  · rintro (hfirst | hrest)
    · exact ⟨0, Nat.succ_pos n, by omega, by omega⟩
    · exact hrest.succ

/-- Nothing else changes. -/
theorem backupOnePageFrom_byte_of_not_spans (hout : ¬ Spans z n iOff off) :
    (backupOnePageFrom z put zSrcData header n iOff dest).2.byte off = dest.byte off := by
  induction n generalizing iOff dest with
  | zero => rfl
  | succ n ih =>
      obtain ⟨hfirst, hrest⟩ := not_or.mp (mt spans_succ.mpr hout)
      rw [backupOnePageFrom]
      split
      · exact ih hrest
      · split
        · rfl
        · rw [ih hrest, copyChunk_byte_of_not_mem hfirst]

/-- If there was no error, what the rounds are for is written. -/
theorem backupOnePageFrom_of_spans (hchunk : z.chunk ∣ iOff)
    (hok : (backupOnePageFrom z put zSrcData header n iOff dest).1 = SQLITE_OK)
    (hspans : Spans z n iOff off) (hdest : off / z.dest.bytes + 1 ≠ pendingBytePage z.dest) :
    off < (backupOnePageFrom z put zSrcData header n iOff dest).2.size ∧
      (¬ HeaderField off → (backupOnePageFrom z put zSrcData header n iOff dest).2.byte off =
        zSrcData (off % z.src.bytes)) := by
  induction n generalizing iOff dest with
  | zero =>
      obtain ⟨m, hm, -⟩ := hspans
      exact absurd hm (Nat.not_lt_zero m)
  | succ n ih =>
      have hnext : z.chunk ∣ iOff + z.dest.bytes := Nat.dvd_add hchunk z.chunk_dvd_dest
      rw [backupOnePageFrom] at hok ⊢
      rcases spans_succ.mp hspans with hfirst | hrest
      · -- the first chunk, which no later round touches
        have hpage : off / z.dest.bytes = iOff / z.dest.bytes := by
          obtain ⟨j, rfl⟩ := Nat.exists_eq_add_of_le hfirst.1
          exact add_div_of_dvd hchunk z.chunk_dvd_dest (by omega)
        have hlater : ¬ Spans z n (iOff + z.dest.bytes) off := by
          rintro ⟨m, -, hstart, -⟩
          have hle := z.chunk_le_dest
          omega
        rw [if_neg (hpage ▸ hdest)] at hok ⊢
        split at hok
        next herror => exact absurd hok herror
        next hput =>
          rw [if_neg hput]
          obtain ⟨hsize, hbyte⟩ := copyChunk_of_mem zSrcData header dest hchunk hfirst.1 hfirst.2
          refine ⟨hsize.trans_le (backupOnePageFrom_size_le _ _ _), fun hfield => ?_⟩
          rw [backupOnePageFrom_byte_of_not_spans hlater, hbyte hfield]
      · split at hok
        next hpending =>
          rw [if_pos hpending]
          exact ih hnext hok hrest
        next hused =>
          rw [if_neg hused]
          split at hok
          next herror => exact absurd hok herror
          next hput =>
            rw [if_neg hput]
            exact ih hnext hok hrest

/-- The rounds for a page write what is on it. -/
theorem spans_page (z : PageSizes) (hi : 0 < i) (off : Nat) :
    Spans z ((z.src.bytes + z.dest.bytes - 1) / z.dest.bytes) (i * z.src.bytes - z.src.bytes) off ↔
      off / z.src.bytes + 1 = i := by
  obtain ⟨k, rfl⟩ := Nat.exists_eq_succ_of_ne_zero hi.ne'
  have hsrc := z.src.bytes_pos
  have hdest := z.dest.bytes_pos
  have hpage : off / z.src.bytes + 1 = k + 1 ↔
      k * z.src.bytes ≤ off ∧ off < k * z.src.bytes + z.src.bytes := by
    rw [Nat.add_right_cancel_iff, Nat.div_eq_iff hsrc]
    omega
  rw [Nat.succ_mul, Nat.add_sub_cancel, Nat.succ_eq_add_one, hpage]
  rcases Nat.le_total z.src.bytes z.dest.bytes with hle | hle
  · -- the page is a part of one page of the destination
    have hchunk : z.chunk = z.src.bytes := Nat.min_eq_left hle
    have hrounds : (z.src.bytes + z.dest.bytes - 1) / z.dest.bytes = 1 :=
      Nat.div_eq_of_lt_le (by omega) (by omega)
    rw [hrounds]
    constructor
    · rintro ⟨m, hm, hstart, hend⟩
      obtain rfl : m = 0 := by omega
      omega
    · intro h
      exact ⟨0, Nat.one_pos, by omega, by omega⟩
  · -- the page consists of some pages of the destination
    have hchunk : z.chunk = z.dest.bytes := Nat.min_eq_right hle
    obtain ⟨r, hr⟩ := z.dest.bytes_dvd_of_le z.src hle
    have hrounds : (z.src.bytes + z.dest.bytes - 1) / z.dest.bytes = r := by
      rw [hr, Nat.add_sub_assoc hdest, Nat.mul_add_div hdest, Nat.div_eq_of_lt (by omega),
        Nat.add_zero]
    rw [hrounds]
    constructor
    · rintro ⟨m, hm, hstart, hend⟩
      have hmul : (m + 1) * z.dest.bytes ≤ r * z.dest.bytes := Nat.mul_le_mul_right _ hm
      rw [Nat.succ_mul, Nat.mul_comm r] at hmul
      omega
    · rintro ⟨hstart, hend⟩
      obtain ⟨j, rfl⟩ := Nat.exists_eq_add_of_le hstart
      have hj : j < z.dest.bytes * r := by omega
      have hlow := Nat.div_mul_le_self j z.dest.bytes
      have hhigh := Nat.lt_div_mul_add (a := j) hdest
      exact ⟨j / z.dest.bytes, Nat.div_lt_of_lt_mul hj, by omega, by omega⟩

theorem backupOnePage_size_le (i : Nat) (dest : Image) :
    dest.size ≤ (backupOnePage z put i zSrcData header dest).2.size :=
  backupOnePageFrom_size_le _ _ _

/-- Copying a page leaves the others alone. -/
theorem backupOnePage_byte_of_other (hi : 0 < i)
    (hother : off / z.src.bytes + 1 ≠ i) :
    (backupOnePage z put i zSrcData header dest).2.byte off = dest.byte off :=
  backupOnePageFrom_byte_of_not_spans (mt (spans_page z hi off).mp hother)

/-- If there was no error, the page is in the destination. -/
theorem backupOnePage_of_page (hi : 0 < i)
    (hok : (backupOnePage z put i zSrcData header dest).1 = SQLITE_OK)
    (hpage : off / z.src.bytes + 1 = i) (hdest : off / z.dest.bytes + 1 ≠ pendingBytePage z.dest) :
    off < (backupOnePage z put i zSrcData header dest).2.size ∧
      (¬ HeaderField off → (backupOnePage z put i zSrcData header dest).2.byte off =
        zSrcData (off % z.src.bytes)) := by
  have hchunk : z.chunk ∣ i * z.src.bytes - z.src.bytes :=
    Nat.dvd_sub (Nat.dvd_mul_left_of_dvd z.chunk_dvd_src i) z.chunk_dvd_src
  exact backupOnePageFrom_of_spans hchunk hok ((spans_page z hi off).mpr hpage) hdest

/-! ## Agreement -/

namespace Agrees

variable {pages pages' : Pages} {limit limit' : Nat}

theorem zero (z : PageSizes) (pages : Pages) (dest : Image) : Agrees z pages 0 dest where
  within off h := by omega
  byte off h := by omega

/-- An offset is on one of the first pages. -/
theorem lt_mul_iff (z : PageSizes) (limit off : Nat) :
    off < limit * z.src.bytes ↔ off / z.src.bytes + 1 ≤ limit :=
  (Nat.div_lt_iff_lt_mul z.src.bytes_pos).symm

/-- Pages that lost their content do no harm. -/
theorem of_subset (h : Agrees z pages limit dest)
    (hsub : ∀ i data, pages'.page i = some data → pages.page i = some data) :
    Agrees z pages' limit dest where
  within := h.within
  byte off hoff hshared hfield data hdata :=
    h.byte off hoff hshared hfield data (hsub _ data hdata)

/-- One more page is in the destination, or a page that was changed. -/
theorem copyPage (h : Agrees z pages limit dest) (hi : 0 < i)
    (hok : (backupOnePage z put i zSrcData header dest).1 = SQLITE_OK)
    (hothers : ∀ j, j ≠ i → pages'.page j = pages.page j)
    (hdata : ∀ data, pages'.page i = some data → zSrcData = data)
    (hlimit : ∀ j, j ≤ limit' → j ≠ i → j ≤ limit) :
    Agrees z pages' limit' (backupOnePage z put i zSrcData header dest).2 where
  within off hoff hshared := by
    by_cases hpage : off / z.src.bytes + 1 = i
    · exact (backupOnePage_of_page hi hok hpage hshared.dest).1
    · have hbefore := hlimit _ ((lt_mul_iff z limit' off).mp hoff) hpage
      exact (h.within off ((lt_mul_iff z limit off).mpr hbefore) hshared).trans_le
        (backupOnePage_size_le i dest)
  byte off hoff hshared hfield data hcontent := by
    by_cases hpage : off / z.src.bytes + 1 = i
    · rw [hpage] at hcontent
      rw [(backupOnePage_of_page hi hok hpage hshared.dest).2 hfield, hdata data hcontent]
    · have hbefore := (lt_mul_iff z limit off).mpr
        (hlimit _ ((lt_mul_iff z limit' off).mp hoff) hpage)
      rw [hothers _ hpage] at hcontent
      rw [backupOnePage_byte_of_other hi hpage,
        h.byte off hbefore hshared hfield data hcontent]

/-- A page that was not copied yet may change. -/
theorem of_later (h : Agrees z pages limit dest) (hi : i = 0 ∨ limit < i)
    (hothers : ∀ j, j ≠ i → pages'.page j = pages.page j) : Agrees z pages' limit dest where
  within := h.within
  byte off hoff hshared hfield data hdata := by
    have hbefore := (lt_mul_iff z limit off).mp hoff
    have hother : off / z.src.bytes + 1 ≠ i := by
      rintro rfl
      rcases hi with hzero | hlater
      · exact Nat.succ_ne_zero _ hzero
      · exact Nat.not_lt.mpr hbefore hlater
    rw [hothers _ hother] at hdata
    exact h.byte off hoff hshared hfield data hdata

/-- The page that is never used is not copied. -/
theorem skip (h : Agrees z pages limit dest) (hpending : limit + 1 = pendingBytePage z.src) :
    Agrees z pages (limit + 1) dest := by
  have hbefore : ∀ off < (limit + 1) * z.src.bytes, Shared z off → off < limit * z.src.bytes := by
    intro off hoff hshared
    have hle := (lt_mul_iff z (limit + 1) off).mp hoff
    have hne := hshared.src
    exact (lt_mul_iff z limit off).mpr (by omega)
  exact ⟨fun off hoff hshared => h.within off (hbefore off hoff hshared) hshared,
    fun off hoff hshared => h.byte off (hbefore off hoff hshared) hshared⟩

end Agrees

/-! ## The end of a copy -/

/-- The file of the destination is a copy of the source: it is as long, and all pages are in it,
apart from what the copy has for itself. -/
structure IsCopy (z : PageSizes) (pages : Pages) (file : Image) : Prop where
  size : pages.count ≠ pendingBytePage z.src → file.size = max pages.count 1 * z.src.bytes
  byte : ∀ i data, i < pages.count → i + 1 ≠ pendingBytePage z.src →
    pages.page (i + 1) = some data → ∀ k < z.src.bytes, ¬ HeaderField (i * z.src.bytes + k) →
      file.byte (i * z.src.bytes + k) = data k

/-- A later version of the destination has all that an earlier one had, except for the header. -/
structure Extends (dest dest' : Image) : Prop where
  size : dest.size ≤ dest'.size
  byte : ∀ off < dest.size, ¬ HeaderField off → dest'.byte off = dest.byte off

namespace Extends

variable {dest dest' dest'' : Image}

theorem refl (dest : Image) : Extends dest dest :=
  ⟨Nat.le_refl _, fun _ _ _ => rfl⟩

theorem trans (h : Extends dest dest') (h' : Extends dest' dest'') : Extends dest dest'' where
  size := h.size.trans h'.size
  byte off hoff hfield := by
    rw [h'.byte off (hoff.trans_le h.size) hfield, h.byte off hoff hfield]

/-- A field of the header is written. -/
theorem overlay (dest : Image) (start length : Nat) (data : Nat → UInt8)
    (hheader : ∀ off, start ≤ off ∧ off < start + length → HeaderField off) :
    Extends dest (dest.overlay start length data) where
  size := Nat.le_max_left _ _
  byte off _ hfield := Image.overlay_byte_of_not_mem (mt (hheader off) hfield)

theorem put4byte (dest : Image) (field : Nat) (value : UInt32)
    (hheader : ∀ off, field ≤ off ∧ off < field + 4 → HeaderField off) :
    Extends dest (put4byte dest field value) :=
  overlay dest field 4 _ hheader

theorem writeChangeCounter (dbFileVers : UInt32) (dest : Image) :
    Extends dest (writeChangeCounter dbFileVers dest) := by
  have hcounter : ∀ off, 24 ≤ off ∧ off < 24 + 4 → HeaderField off :=
    fun off h => Or.inr (Or.inl (by omega))
  have hvalid : ∀ off, 92 ≤ off ∧ off < 92 + 4 → HeaderField off :=
    fun off h => Or.inr (Or.inr (Or.inr (by omega)))
  have hversion : ∀ off, 96 ≤ off ∧ off < 96 + 4 → HeaderField off :=
    fun off h => Or.inr (Or.inr (Or.inr (by omega)))
  exact ((put4byte dest 24 _ hcounter).trans (put4byte _ 92 _ hvalid)).trans
    (put4byte _ 96 _ hversion)

end Extends

/-- If the pages of the destination are not larger, its page that is never used is on that of the
source. -/
theorem pending_of_dest_le (hle : z.dest.bytes ≤ z.src.bytes)
    (h : off / z.dest.bytes + 1 = pendingBytePage z.dest) :
    off / z.src.bytes + 1 = pendingBytePage z.src := by
  obtain ⟨r, hr⟩ := z.dest.bytes_dvd_of_le z.src hle
  have hsame : off / z.dest.bytes = PENDING_BYTE / z.dest.bytes := Nat.succ_injective h
  unfold pendingBytePage
  rw [hr, ← Nat.div_div_eq_div_mul, ← Nat.div_div_eq_div_mul, hsame]

theorem pending_div_mul (size : PageSize) : PENDING_BYTE / size.bytes * size.bytes = PENDING_BYTE :=
  Nat.div_mul_cancel size.bytes_dvd_pending

section Behind

variable {src : SourcePager} {stale : Nat → Page} {iEnd : Nat}

theorem writeBehindPending_size_le (n iOff : Nat) (dest : Image) :
    dest.size ≤ (writeBehindPending z src stale iEnd n iOff dest).size := by
  induction n generalizing iOff dest with
  | zero => exact Nat.le_refl _
  | succ n ih =>
      rw [writeBehindPending]
      split
      · refine le_trans ?_ (ih _ _)
        exact Nat.le_max_left _ _
      · exact Nat.le_refl _

/-- What is behind the page that is never used is written, and nothing else changes. -/
theorem writeBehindPending_byte_of_not_mem (hoff : z.src.bytes ∣ iOff) (hend : z.src.bytes ∣ iEnd)
    (hout : ¬ (iOff ≤ off ∧ off < iEnd)) :
    (writeBehindPending z src stale iEnd n iOff dest).byte off = dest.byte off := by
  induction n generalizing iOff dest with
  | zero => rfl
  | succ n ih =>
      rw [writeBehindPending]
      split
      next hlt =>
        have hblock : iOff + z.src.bytes ≤ iEnd := by
          obtain ⟨a, rfl⟩ := hoff
          obtain ⟨b, rfl⟩ := hend
          have hab : a < b := Nat.lt_of_mul_lt_mul_left hlt
          calc z.src.bytes * a + z.src.bytes = z.src.bytes * (a + 1) := (Nat.mul_succ _ _).symm
            _ ≤ z.src.bytes * b := Nat.mul_le_mul_left _ hab
        rw [ih (Nat.dvd_add_self_right.mpr hoff) (by omega), Image.overlay_byte_of_not_mem (by omega)]
      next => rfl

theorem writeBehindPending_of_mem (hoff : z.src.bytes ∣ iOff) (hend : z.src.bytes ∣ iEnd)
    (hstart : iOff ≤ off) (hlt : off < iEnd) (hrounds : off < iOff + n * z.src.bytes) :
    off < (writeBehindPending z src stale iEnd n iOff dest).size ∧
      (writeBehindPending z src stale iEnd n iOff dest).byte off =
        src.pageData stale (off / z.src.bytes + 1) (off % z.src.bytes) := by
  induction n generalizing iOff dest with
  | zero => omega
  | succ n ih =>
      rw [writeBehindPending, if_pos (by omega)]
      rw [Nat.succ_mul] at hrounds
      have hnext : z.src.bytes ∣ iOff + z.src.bytes := Nat.dvd_add_self_right.mpr hoff
      by_cases hblock : off < iOff + z.src.bytes
      · have hsize : off < (dest.overlay iOff z.src.bytes
            (src.pageData stale (iOff / z.src.bytes + 1))).size :=
          hblock.trans_le (Nat.le_max_right _ _)
        obtain ⟨j, rfl⟩ := Nat.exists_eq_add_of_le hstart
        have hj : j < z.src.bytes := by omega
        have hmod : (iOff + j) % z.src.bytes = j := by
          rw [add_mod_of_dvd hoff (dvd_refl _) hj, Nat.mod_eq_zero_of_dvd hoff, Nat.zero_add]
        refine ⟨hsize.trans_le (writeBehindPending_size_le _ _ _), ?_⟩
        rw [writeBehindPending_byte_of_not_mem hnext hend (by omega),
          Image.overlay_byte_of_mem hstart hblock, add_div_of_dvd hoff (dvd_refl _) hj, hmod,
          Nat.add_sub_cancel_left]
      · exact ih hnext (by omega) (by omega)

end Behind

/-- The pages of the source that share a page of the destination with the one that is never used
are those behind it. -/
theorem behind_pending (hlt : z.src.bytes < z.dest.bytes) (hsrc : off / z.src.bytes + 1 ≠
    pendingBytePage z.src) (hdest : off / z.dest.bytes + 1 = pendingBytePage z.dest) :
    PENDING_BYTE + z.src.bytes ≤ off ∧ off < PENDING_BYTE + z.dest.bytes := by
  have hdiv : off / z.dest.bytes = PENDING_BYTE / z.dest.bytes := Nat.succ_injective hdest
  obtain ⟨hstart, hend⟩ := (Nat.div_eq_iff z.dest.bytes_pos).mp hdiv
  rw [pending_div_mul] at hstart hend
  have hpos := z.dest.bytes_pos
  refine ⟨?_, by omega⟩
  by_contra hbefore
  obtain ⟨j, rfl⟩ := Nat.exists_eq_add_of_le hstart
  apply hsrc
  rw [add_div_of_dvd z.src.bytes_dvd_pending (dvd_refl _) (by omega)]
  rfl

/-- All bytes of the page {lit}`i + 1` are on that page. -/
theorem page_of_add (z : PageSizes) (i : Nat) {k : Nat} (hk : k < z.src.bytes) :
    (i * z.src.bytes + k) / z.src.bytes = i ∧ (i * z.src.bytes + k) % z.src.bytes = k := by
  constructor
  · rw [Nat.mul_comm, Nat.mul_add_div z.src.bytes_pos, Nat.div_eq_of_lt hk, Nat.add_zero]
  · rw [Nat.mul_comm, Nat.mul_add_mod, Nat.mod_eq_of_lt hk]

/-- All pages of the source are in the destination, also those behind the page of the destination
that is never used. -/
structure Complete (z : PageSizes) (pages : Pages) (dest : Image) : Prop where
  within : ∀ off < pages.count * z.src.bytes, off / z.src.bytes + 1 ≠ pendingBytePage z.src →
    off < dest.size
  byte : ∀ off < pages.count * z.src.bytes, off / z.src.bytes + 1 ≠ pendingBytePage z.src →
    ¬ HeaderField off → ∀ data, pages.page (off / z.src.bytes + 1) = some data →
      dest.byte off = data (off % z.src.bytes)

/-- When the length is right, the destination is a copy. -/
theorem Complete.isCopy {pages : Pages} (h : Complete z pages dest)
    (hempty : pages.count = 0 → z.src.bytes ≤ dest.size) :
    IsCopy z pages (dest.truncate (max pages.count 1 * z.src.bytes)) where
  size hcount := by
    have hpos := z.src.bytes_pos
    rw [Image.truncate_size]
    refine Nat.min_eq_right ?_
    rcases Nat.eq_zero_or_pos pages.count with hzero | hsome
    · rw [hzero, Nat.max_eq_right (Nat.zero_le 1), Nat.one_mul]
      exact hempty hzero
    · -- the last byte of the last page is there
      obtain ⟨n, hn⟩ := Nat.exists_eq_succ_of_ne_zero hsome.ne'
      obtain ⟨hdiv, -⟩ := page_of_add z n (Nat.sub_lt hpos Nat.one_pos)
      have hlast : n * z.src.bytes + (z.src.bytes - 1) < pages.count * z.src.bytes := by
        rw [hn, Nat.succ_mul]
        omega
      have hwithin := h.within _ hlast (by rw [hdiv]; omega)
      rw [Nat.max_eq_left hsome, hn, Nat.succ_mul]
      omega
  byte i data hi hpending hdata k hk hfield := by
    obtain ⟨hdiv, hmod⟩ := page_of_add z i hk
    have hoff : i * z.src.bytes + k < pages.count * z.src.bytes := by
      rw [Agrees.lt_mul_iff, hdiv]
      exact hi
    have hend : i * z.src.bytes + k < max pages.count 1 * z.src.bytes :=
      hoff.trans_le (Nat.mul_le_mul_right _ (Nat.le_max_left _ _))
    rw [Image.truncate_byte hend, h.byte _ hoff (by rw [hdiv]; exact hpending) hfield data
      (by rw [hdiv]; exact hdata), hmod]

section Resize

variable {src : SourcePager} {dest' : Image}

/-- If the pages of the destination are not larger, nothing is missing. -/
theorem Agrees.complete_of_dest_le (h : Agrees z src.file src.file.count dest)
    (hdest : Extends dest dest') (hle : z.dest.bytes ≤ z.src.bytes) :
    Complete z src.file dest' where
  within off hoff hsrc :=
    (h.within off hoff ⟨hsrc, mt (pending_of_dest_le hle) hsrc⟩).trans_le hdest.size
  byte off hoff hsrc hfield data hdata := by
    have hshared : Shared z off := ⟨hsrc, mt (pending_of_dest_le hle) hsrc⟩
    rw [hdest.byte off (h.within off hoff hshared) hfield,
      h.byte off hoff hshared hfield data hdata]

/-- If they are larger, the pages that are written directly are all that was missing. -/
theorem Agrees.complete_of_src_lt (stale : Nat → Page)
    (h : Agrees z src.file src.file.count dest) (hdest : Extends dest dest')
    (hlt : z.src.bytes < z.dest.bytes) {iSize : Nat} (hsize : z.src.bytes ∣ iSize)
    (hall : src.file.count * z.src.bytes ≤ iSize) :
    Complete z src.file (writeBehindPending z src stale (min (PENDING_BYTE + z.dest.bytes) iSize)
      (z.dest.bytes / z.src.bytes - 1) (PENDING_BYTE + z.src.bytes) dest') := by
  have hdvd := z.src.bytes_dvd_of_le z.dest hlt.le
  have hstart : z.src.bytes ∣ PENDING_BYTE + z.src.bytes :=
    Nat.dvd_add_self_right.mpr z.src.bytes_dvd_pending
  have hend : z.src.bytes ∣ min (PENDING_BYTE + z.dest.bytes) iSize := by
    rcases Nat.le_total (PENDING_BYTE + z.dest.bytes) iSize with hle | hle
    · rw [Nat.min_eq_left hle]
      exact Nat.dvd_add z.src.bytes_dvd_pending hdvd
    · rw [Nat.min_eq_right hle]
      exact hsize
  have hrounds : (z.dest.bytes / z.src.bytes - 1) * z.src.bytes = z.dest.bytes - z.src.bytes := by
    rw [Nat.sub_mul, Nat.div_mul_cancel hdvd, Nat.one_mul]
  have hout : ∀ off, off / z.dest.bytes + 1 ≠ pendingBytePage z.dest →
      ¬ (PENDING_BYTE + z.src.bytes ≤ off ∧ off < min (PENDING_BYTE + z.dest.bytes) iSize) := by
    rintro off hused ⟨hfrom, hto⟩
    obtain ⟨j, rfl⟩ := Nat.exists_eq_add_of_le (by omega : PENDING_BYTE ≤ off)
    apply hused
    rw [add_div_of_dvd z.dest.bytes_dvd_pending (dvd_refl _) (by omega)]
    rfl
  constructor
  · intro off hoff hsrc
    by_cases hpending : off / z.dest.bytes + 1 = pendingBytePage z.dest
    · obtain ⟨hfrom, hto⟩ := behind_pending hlt hsrc hpending
      exact (writeBehindPending_of_mem hstart hend hfrom (by omega) (by omega)).1
    · exact ((h.within off hoff ⟨hsrc, hpending⟩).trans_le hdest.size).trans_le
        (writeBehindPending_size_le _ _ _)
  · intro off hoff hsrc hfield data hdata
    by_cases hpending : off / z.dest.bytes + 1 = pendingBytePage z.dest
    · obtain ⟨hfrom, hto⟩ := behind_pending hlt hsrc hpending
      rw [(writeBehindPending_of_mem hstart hend hfrom (by omega) (by omega)).2,
        SourcePager.pageData, hdata]
      rfl
    · have hshared : Shared z off := ⟨hsrc, hpending⟩
      have hwithin := h.within off hoff hshared
      rw [writeBehindPending_byte_of_not_mem hstart hend (hout off hpending), hdest.byte off hwithin hfield,
        h.byte off hoff hshared hfield data hdata]

/-- What {lit}`resizeDest` leaves is a copy. -/
theorem Agrees.resizeDest_isCopy (stale : Nat → Page)
    (h : Agrees z src.file src.file.count dest) (hdest : Extends dest dest')
    (hempty : src.file.count = 0 → z.dest.bytes ≤ dest'.size) :
    IsCopy z src.file (resizeDest z src stale (max src.file.count 1) dest') := by
  by_cases hlt : z.src.bytes < z.dest.bytes
  · have hresize : resizeDest z src stale (max src.file.count 1) dest' =
        (writeBehindPending z src stale (min (PENDING_BYTE + z.dest.bytes)
          (z.src.bytes * max src.file.count 1)) (z.dest.bytes / z.src.bytes - 1)
          (PENDING_BYTE + z.src.bytes) dest').truncate (z.src.bytes * max src.file.count 1) :=
      if_pos hlt
    rw [hresize, Nat.mul_comm z.src.bytes]
    refine (h.complete_of_src_lt stale hdest hlt (Nat.dvd_mul_left _ _) ?_).isCopy ?_
    · exact Nat.mul_le_mul_right _ (Nat.le_max_left _ _)
    · intro hzero
      exact (hlt.le.trans (hempty hzero)).trans (writeBehindPending_size_le _ _ _)
  · have hle := Nat.le_of_not_lt hlt
    have hcount : max src.file.count 1 * (z.src.bytes / z.dest.bytes) * z.dest.bytes =
        max src.file.count 1 * z.src.bytes := by
      rw [Nat.mul_assoc, Nat.div_mul_cancel (z.dest.bytes_dvd_of_le z.src hle)]
    unfold resizeDest
    dsimp only
    rw [if_neg hlt, hcount]
    refine (h.complete_of_dest_le (hdest.trans ⟨?_, ?_⟩) hle).isCopy ?_
    · exact Nat.le_max_left _ _
    · intro off hoff _
      exact Image.extend_byte _ _ _
    · intro hzero
      have hfirst : z.src.bytes / z.dest.bytes ≠ pendingBytePage z.dest := by
        have hsmall : z.src.bytes / z.dest.bytes ≤ PENDING_BYTE / z.dest.bytes :=
          Nat.div_le_div_right (Nat.le_of_dvd (by decide) z.src.bytes_dvd_pending)
        exact (Nat.lt_succ_of_le hsmall).ne
      rw [hzero, Nat.max_eq_right (Nat.zero_le 1), Nat.one_mul, if_neg hfirst, Image.extend_size,
        Nat.div_mul_cancel (z.dest.bytes_dvd_of_le z.src hle)]
      exact Nat.le_max_right _ _

end Resize

/-- An empty database has a page. -/
theorem newDatabase_size_le (dest : Image) : z.dest.bytes ≤ (newDatabase z dest).size := by
  have hextend : z.dest.bytes ≤ (dest.extend z.dest.bytes).size := Nat.le_max_right _ _
  exact hextend.trans (Nat.le_max_left _ _)

/-- When all pages were copied, the end of a step makes the destination a copy. -/
theorem Agrees.finishDest_isCopy {s : System} (io : StepIo)
    (h : Agrees z s.src.file s.src.file.count s.dest) :
    IsCopy z s.src.file (finishDest z io s.src.file.count s) := by
  have hcookie : ∀ off, 40 ≤ off ∧ off < 40 + 4 → HeaderField off :=
    fun off h => Or.inr (Or.inr (Or.inl (by omega)))
  have hversion : ∀ off, 18 ≤ off ∧ off < 18 + 2 → HeaderField off :=
    fun off h => Or.inl (by omega)
  have hwal : ∀ dest, Extends dest (if io.destWal then dest.overlay 18 2 fun _ => 2 else dest) := by
    intro dest
    split
    · exact Extends.overlay dest 18 2 _ hversion
    · exact Extends.refl dest
  have hheader : ∀ dest, Extends dest (writeChangeCounter io.destCounter
      (if io.destWal then (put4byte dest 40 (s.p.iDestSchema + 1)).overlay 18 2 fun _ => 2
        else put4byte dest 40 (s.p.iDestSchema + 1))) := fun dest =>
    ((Extends.put4byte dest 40 _ hcookie).trans (hwal _)).trans (Extends.writeChangeCounter _ _)
  unfold finishDest
  dsimp only
  by_cases hzero : s.src.file.count = 0
  · have hnew : Agrees z s.src.file s.src.file.count (newDatabase z s.dest) := by
      rw [hzero]
      exact Agrees.zero z _ _
    rw [if_pos hzero]
    exact hnew.resizeDest_isCopy io.stale (hheader _) fun _ =>
      (newDatabase_size_le s.dest).trans (hheader _).size
  · rw [if_neg hzero]
    exact h.resizeDest_isCopy io.stale (hheader _) fun hempty => absurd hempty hzero

end Copy

end Sqlite
end IdeMultiarch
