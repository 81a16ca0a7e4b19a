import Zephcraft.Foundations.FlatArray
import Zephcraft.Sql.PageMap

/-!
# Sql/Flat — a database file as an array of bytes

What a file means to whoever reads it: bytes from zero on, all of them zero where nothing was
written. Pages, buffers and objects do not show.
-/

namespace Zephcraft.Sql

open List Option FlatArray PageMap

/-- An array of bytes that is zero behind its end, and its size in pages. -/
@[ext] structure Flat where
  bytes : ℕ → Byte
  pageCount : ℕ

namespace Flat

def empty : Flat := ⟨fun _ => 0, 0⟩

/-- The number of pages that end where a window does. -/
def reach (len offset : ℕ) : ℕ := if len = 0 then 0 else (offset + len - 1) / pageSize + 1

def readAt (f : Flat) (len offset : ℕ) : Bytes := FlatArray.read f.bytes len offset

def writeAt (f : Flat) (buf : Bytes) (offset : ℕ) : Flat :=
  ⟨FlatArray.write f.bytes buf offset, max f.pageCount (reach buf.length offset)⟩

/-- Cut off behind a number of pages, or grow to it. -/
def setPageCount (f : Flat) (pages : ℕ) : Flat :=
  ⟨fun i => if i < pages * pageSize then f.bytes i else 0, pages⟩

theorem reach_append (len len' offset : ℕ) :
    max (reach len offset) (reach len' (offset + len)) = reach (len + len') offset := by
  unfold reach pageSize
  split_ifs <;> omega

theorem writeAt_append (f : Flat) (buf buf' : Bytes) (offset : ℕ) :
    (f.writeAt buf offset).writeAt buf' (offset + buf.length) = f.writeAt (buf ++ buf') offset := by
  unfold writeAt
  rw [FlatArray.write_append, length_append, ← reach_append, max_assoc]

theorem writeAt_page (f : Flat) {buf : Bytes} {within : ℕ} (page : ℕ) (hbuf : buf ≠ [])
    (hw : within + buf.length ≤ pageSize) :
    f.writeAt ((f.readAt pageSize (page * pageSize)).take within ++ buf
        ++ (f.readAt pageSize (page * pageSize)).drop (within + buf.length)) (page * pageSize)
      = f.writeAt buf (page * pageSize + within) := by
  have hpos : 0 < buf.length := length_pos_of_ne_nil hbuf
  unfold writeAt readAt
  rw [write_block _ _ _ _ hw]
  congr 2
  simp only [length_append, length_take, length_drop, length_read, reach]
  unfold pageSize at hw ⊢
  split_ifs <;> omega

end Flat

@[simp] theorem length_pad (data : Bytes) : (pad data).length = pageSize := by
  rw [pad, length_append, length_take, length_replicate]
  omega

theorem pad_of_length {data : Bytes} (h : data.length = pageSize) : pad data = data := by
  rw [pad, h, Nat.sub_self, replicate_zero, append_nil, take_of_length_le h.le]

namespace PageMap

variable (m : PageMap)

def page (n : ℕ) : Bytes := pad ((m.content n).getD [])

/-- **The array of bytes that a file is.** -/
def flat : Flat := ⟨fun i => ((m.page (i / pageSize))[i % pageSize]?).getD 0, m.pageCount⟩

theorem readAt_page (n : ℕ) : m.flat.readAt pageSize (n * pageSize) = m.page n := by
  refine ext_getElem? fun i => ?_
  rw [Flat.readAt, getElem?_read, flat]
  split
  · rename_i hi
    have hdiv : (n * pageSize + i) / pageSize = n := by
      unfold pageSize at hi ⊢
      omega
    have hmod : (n * pageSize + i) % pageSize = i := by
      unfold pageSize at hi ⊢
      omega
    dsimp only
    have hlen : i < (m.page n).length := by rwa [page, length_pad]
    rw [hdiv, hmod, getElem?_eq_getElem hlen, getD_some]
  · rw [getElem?_eq_none]
    rw [page, length_pad]
    omega

theorem flat_put (n : ℕ) (data : Bytes) :
    (m.put n data).flat = m.flat.writeAt (pad data) (n * pageSize) := by
  have hr : Flat.reach pageSize (n * pageSize) = n + 1 := by
    unfold Flat.reach pageSize
    split_ifs <;> omega
  refine Flat.ext (funext fun i => ?_) ?_
  · dsimp only [flat, page, put, Flat.writeAt, FlatArray.write]
    by_cases hi : i / pageSize = n
    · have hoff : n * pageSize ≤ i ∧ i - n * pageSize = i % pageSize ∧ i % pageSize < pageSize := by
        unfold pageSize at hi ⊢
        omega
      rw [if_neg (not_lt.mpr hoff.1), hoff.2.1, hi, Function.update_self, getD_some,
        getElem?_eq_getElem (by rw [length_pad]; exact hoff.2.2), getD_some, getD_some]
    · rw [Function.update_of_ne hi]
      split
      · rfl
      · have hout : pageSize ≤ i - n * pageSize := by
          unfold pageSize at *
          omega
        have hn : (pad data)[i - n * pageSize]? = none := getElem?_eq_none (by rwa [length_pad])
        rw [hn, getD_none]
  · rw [Flat.writeAt, length_pad, hr]
    rfl

end PageMap

namespace Pager

variable {M : Medium} {p p' : Pager}

theorem flat_writePage {n : ℕ} {data : Bytes} (hp : p.writePage n data = .ok p') :
    (p'.file M).flat = (p.file M).flat.writeAt (pad data) (n * pageSize) := by
  rw [file_writePage hp, flat_put]

theorem flat_setPageCount (p : Pager) (pages : ℕ) :
    ((p.setPageCount pages).file M).flat = (p.file M).flat.setPageCount pages := by
  refine Flat.ext (funext fun i => ?_) rfl
  dsimp only [flat, page, Flat.setPageCount, file]
  rw [content_setPageCount]
  have hlt : i / pageSize < pages ↔ i < pages * pageSize :=
    Nat.div_lt_iff_lt_mul (by norm_num [pageSize])
  simp only [hlt]
  split
  · rfl
  · have hmod : i % pageSize < pageSize := Nat.mod_lt _ (by norm_num [pageSize])
    simp [pad, hmod]

theorem Coherent.readPage_flat (h : p.Coherent M) (hf : p.store.Faithful M) (n : ℕ) :
    p.readPage M n = (p.file M).flat.readAt pageSize (n * pageSize) := by
  rw [h.readPage hf, readAt_page]
  rfl

theorem Coherent.readLoop (h : p.Coherent M) (hf : p.store.Faithful M) {fuel len pos : ℕ}
    (hfu : len ≤ fuel) (hpos : ∀ i < len, (pos + i) / pageSize < 2 ^ 32) :
    p.readLoop M fuel len pos = .ok ((p.file M).flat.readAt len pos) := by
  induction fuel generalizing len pos with
  | zero =>
    obtain rfl : len = 0 := Nat.le_zero.mp hfu
    rfl
  | succ fuel ih =>
    rw [Pager.readLoop]
    split
    · rename_i hlen
      rw [hlen]
      rfl
    · rename_i hlen
      have hfi : pos / pageSize < 2 ^ 32 := hpos 0 (Nat.pos_of_ne_zero hlen)
      have hb : ¬ 2 ^ 64 ≤ pos := by
        unfold pageSize at hfi
        omega
      rw [if_neg hb]
      dsimp only
      generalize hn : min (pageSize - pos % pageSize) len = n
      have hle : n ≤ len ∧ 0 < n ∧ pos % pageSize + n ≤ pageSize := by
        unfold pageSize at hn ⊢
        omega
      rw [ih (by omega) fun i hi => by rw [Nat.add_assoc]; exact hpos _ (by omega),
        Nat.mod_eq_of_lt hfi, h.readPage_flat hf]
      -- the part that is on this page, and the rest
      refine congrArg Except.ok ?_
      unfold Flat.readAt
      rw [take_drop_read _ _ _ hle.2.2, Nat.div_add_mod', ← read_append, Nat.add_sub_cancel' hle.1]

theorem Coherent.writePart (h : p.Coherent M) (hf : p.store.Faithful M) {page within : ℕ}
    {buf : Bytes} (hp : page < 2 ^ 32 - 1) (hbuf : buf ≠ []) (hw : within + buf.length ≤ pageSize) :
    ∃ p', p.writePage page ((p.readPage M page).take within ++ buf ++ (p.readPage M page).drop
      (within + buf.length)) = .ok p'
      ∧ (p'.file M).flat = (p.file M).flat.writeAt buf (page * pageSize + within) := by
  have hlen :
      ((p.readPage M page).take within ++ buf ++ (p.readPage M page).drop
        (within + buf.length)).length = pageSize := by
    rw [h.readPage hf, length_append, length_append, length_take, length_drop, length_pad]
    omega
  refine ⟨_, writePage_eq_ok.mpr ⟨by omega, rfl⟩, ?_⟩
  rw [flat_writePage (writePage_eq_ok.mpr ⟨by omega, rfl⟩), pad_of_length hlen, h.readPage_flat hf,
    Flat.writeAt_page _ _ hbuf hw]

theorem Coherent.writeLoop (h : p.Coherent M) (hf : p.store.Faithful M) {fuel : ℕ} {buf : Bytes}
    {pos : ℕ} (hfu : buf.length ≤ fuel)
    (hpos : ∀ i < buf.length, (pos + i) / pageSize < 2 ^ 32 - 1) :
    ∃ p', p.writeLoop M fuel buf pos = .ok p'
      ∧ (p'.file M).flat = (p.file M).flat.writeAt buf pos := by
  have hw : ∀ {q : Pager} {pos : ℕ}, (q.file M).flat = (q.file M).flat.writeAt [] pos :=
    fun {q pos} => by
    simp [Flat.writeAt, Flat.reach]
  induction fuel generalizing p buf pos with
  | zero =>
    obtain rfl : buf = [] := length_eq_zero_iff.mp (Nat.le_zero.mp hfu)
    exact ⟨p, rfl, hw⟩
  | succ fuel ih =>
    rw [Pager.writeLoop]
    split
    · rename_i hbuf
      rw [hbuf]
      exact ⟨p, rfl, hw⟩
    · rename_i hbuf
      have hlen : 0 < buf.length := length_pos_of_ne_nil hbuf
      have hfi : pos / pageSize < 2 ^ 32 - 1 := hpos 0 hlen
      have hb : ¬ 2 ^ 64 ≤ pos := by
        unfold pageSize at hfi
        omega
      rw [if_neg hb, Nat.mod_eq_of_lt (by omega)]
      dsimp only
      generalize hn : min (pageSize - pos % pageSize) buf.length = n
      have hle : n ≤ buf.length ∧ 0 < n ∧ pos % pageSize + n ≤ pageSize := by
        unfold pageSize at hn ⊢
        omega
      have ht : (buf.take n).length = n := length_take_of_le hle.1
      obtain ⟨mid, hmid, hfl⟩ := h.writePart hf hfi
        (show buf.take n ≠ [] from ne_nil_of_length_pos (by omega)) (by rw [ht]; exact hle.2.2)
      rw [ht] at hmid
      have hs : mid.store.Faithful M := by rwa [store_writePage hmid]
      have hr : ∀ i < (buf.drop n).length, (pos + n + i) / pageSize < 2 ^ 32 - 1 := fun i hi => by
        rw [length_drop] at hi
        rw [Nat.add_assoc]
        exact hpos _ (by omega)
      obtain ⟨p', hp', hf'⟩ := ih (h.writePage hmid) hs (by rw [length_drop]; omega) hr
      refine ⟨p', by rw [hmid]; exact hp', ?_⟩
      rw [hf', hfl, Nat.div_add_mod']
      have ha := (p.file M).flat.writeAt_append (buf.take n) (buf.drop n) pos
      rwa [ht, take_append_drop] at ha

end Pager

end Zephcraft.Sql
