import Zephcraft.Store.Pieces

/-!
# Store/Serve — serving coded pieces

A request names the pieces it does not want. The store answers with held pieces first, and a node
that has the whole content tops up by encoding: it draws a piece, and draws again if the piece is
excluded.
-/

namespace Zephcraft.Store

open Erasure List

/-- `content.chunks(n)`. -/
def chunks (n : ℕ) : ℕ → Bytes → List Bytes
  | 0, _ => []
  | fuel + 1, content => if content.isEmpty then [] else content.take n :: chunks n fuel
    (content.drop n)

/-- `s.resize(n, 0)`. -/
def resize (n : ℕ) (s : Bytes) : Bytes := (s ++ List.replicate (n - s.length) 0).take n

/-- The source pieces of a content: at least `k` of them, the last ones filled up with zeros. -/
def splitSources (content : Bytes) (k pieceLen : ℕ) : List Bytes :=
  let sources := chunks (max pieceLen 1) content.length content
  (sources ++ List.replicate (k - sources.length) (List.replicate pieceLen 0)).map (resize pieceLen)

namespace PieceStore

/-- The loop over the held pieces: those that can be read, until there are enough. -/
def takeHeld (store : PieceStore) (cid : B32) (limit : ℕ) :
    List B32 → List CodedPiece → List CodedPiece
  | [], out => out
  | pid :: ids, out =>
    if limit ≤ out.length then out
    else
      match store.readPiece cid pid with
      | some piece => takeHeld store cid limit ids (out ++ [piece])
      | none => takeHeld store cid limit ids out

/-- The loop that tops up from the sources. -/
def topUp (rounds : ℕ) (sources : List Bytes) (exclude : List B32) (limit : ℕ) :
    ℕ → List CodedPiece → Rng → Option (Except StoreError (List CodedPiece))
  | 0, _, _ => none
  | turns + 1, out, rng =>
    if limit ≤ out.length then some (.ok out)
    else
      match encode rounds sources rng with
      | none => none
      | some (.error e, _) => some (.error (.erasure e))
      | some (.ok piece, rng) =>
        topUp rounds sources exclude limit turns
          (if piece.pieceId ∈ exclude then out else out ++ [piece]) rng

/-- Up to `limit` pieces that are not excluded; `none` while a loop has not left after `rounds`
rounds. -/
def servePieces (rounds : ℕ) (store : PieceStore) (cid : B32) (exclude : List B32) (limit : ℕ)
    (rng : Rng) : Option (Except StoreError (List CodedPiece)) :=
  match store.index[cid]? with
  | none => some (.ok [])
  | some state =>
    let out := store.takeHeld cid limit (state.pieceIds.filter (· ∉ exclude)) []
    if out.length < limit ∧ state.hasContent then
      match store.content cid with
      | some content =>
        topUp rounds (splitSources content state.gen.k.val state.gen.pieceLen.val) exclude limit
          rounds out rng
      | none => some (.ok out)
    else some (.ok out)

/-! ## The sources of a content -/

variable {content : Bytes} {k pieceLen : ℕ}

theorem length_resize (n : ℕ) (s : Bytes) : (resize n s).length = n := by
  simp [resize]
  omega

theorem le_length_splitSources (content : Bytes) (k pieceLen : ℕ) :
    k ≤ (splitSources content k pieceLen).length := by
  simp [splitSources]
  omega

theorem length_of_mem_splitSources {s : Bytes} (hs : s ∈ splitSources content k pieceLen) :
    s.length = pieceLen := by
  obtain ⟨t, -, rfl⟩ := mem_map.mp hs
  exact length_resize pieceLen t

theorem resize_of_length {n : ℕ} {s : Bytes} (h : s.length = n) : resize n s = s := by
  simp [resize, ← h]

/-- **The chunks make up the content**, and zeros after it once they are filled up. -/
theorem flatten_chunks {n fuel : ℕ} (hn : 0 < n) (hf : content.length ≤ fuel) :
    ∃ z, ((chunks n fuel content).map (resize n)).flatten = content ++ List.replicate z 0 := by
  induction fuel generalizing content with
  | zero => exact ⟨0, by simp [chunks, length_eq_zero_iff.mp (Nat.le_zero.mp hf)]⟩
  | succ fuel ih =>
    rw [chunks]
    split_ifs with he
    · exact ⟨0, by simp [List.isEmpty_iff.mp he]⟩
    · have hpos : 0 < content.length := length_pos_iff.mpr (by simpa using he)
      have hr : (content.drop n).length ≤ fuel := by
        rw [length_drop]
        omega
      obtain ⟨z, hz⟩ := ih hr
      rw [map_cons, flatten_cons, hz]
      rcases Nat.le_total n content.length with hle | hle
      · refine ⟨z, ?_⟩
        rw [resize_of_length (by simp [hle]), ← append_assoc, take_append_drop]
      · -- the last chunk, which is the one that is filled up
        refine ⟨n - content.length + z, ?_⟩
        rw [take_of_length_le hle, drop_of_length_le hle, nil_append, resize,
          take_of_length_le (by simp; omega), append_assoc, replicate_append_replicate]

theorem length_chunks_le {n fuel : ℕ} (h : content.length ≤ k * n) :
    (chunks n fuel content).length ≤ k := by
  induction fuel generalizing content k with
  | zero => simp [chunks]
  | succ fuel ih =>
    rw [chunks]
    split_ifs with he
    · simp
    · have hpos : 0 < content.length := length_pos_iff.mpr (by simpa using he)
      obtain ⟨j, rfl⟩ : ∃ j, k = j + 1 :=
        ⟨k - 1, (Nat.succ_pred_eq_of_pos (Nat.pos_of_mul_pos_right (hpos.trans_le h))).symm⟩
      rw [Nat.succ_mul] at h
      rw [length_cons]
      exact Nat.succ_le_succ (ih (by rw [length_drop]; omega))

theorem length_splitSources (h : content.length ≤ k * pieceLen) :
    (splitSources content k pieceLen).length = k := by
  have hle : (chunks (max pieceLen 1) content.length content).length ≤ k :=
    length_chunks_le (h.trans (Nat.mul_le_mul_left k (le_max_left _ _)))
  simp [splitSources, Nat.add_sub_cancel' hle]

theorem flatten_splitSources (content : Bytes) (k : ℕ) (hpos : 0 < pieceLen) :
    (splitSources content k pieceLen).flatten.take content.length = content := by
  obtain ⟨z, hz⟩ := flatten_chunks hpos (le_refl content.length)
  simp only [splitSources, Nat.max_eq_left (Nat.one_le_iff_ne_zero.mpr hpos.ne')]
  rw [map_append, flatten_append, hz, append_assoc, take_left]

/-- **The sources of a content can be encoded exactly when their length is not zero.** -/
theorem checkSources_splitSources (content : Bytes) (hk : 1 ≤ k) :
    checkSources (splitSources content k pieceLen) = .ok pieceLen ↔ 0 < pieceLen := by
  have hne : splitSources content k pieceLen ≠ [] :=
    ne_nil_of_length_pos (hk.trans (le_length_splitSources content k pieceLen))
  rw [checkSources_eq_ok]
  exact ⟨fun h => h.2.1, fun h => ⟨hne, h, fun _ => length_of_mem_splitSources⟩⟩

theorem checkSources_splitSources_zero (content : Bytes) (k : ℕ) :
    ∃ e, checkSources (splitSources content k 0) = .error e := by
  cases h : checkSources (splitSources content k 0) with
  | error e => exact ⟨e, rfl⟩
  | ok n =>
    obtain ⟨hne, hpos, hlen⟩ := checkSources_eq_ok.mp h
    obtain ⟨s, hs⟩ := exists_mem_of_ne_nil _ hne
    have := (hlen s hs).symm.trans (length_of_mem_splitSources hs)
    omega

/-! ## Leaving the loops -/

variable {store : PieceStore} {cid : B32} {exclude : List B32} {limit rounds turns : ℕ}
  {sources : List Bytes} {out : List CodedPiece} {rng : Rng}

def unexcluded (store : PieceStore) (cid : B32) (state : CidState) (exclude : List B32) :
    List CodedPiece :=
  (state.pieceIds.filter (· ∉ exclude)).filterMap (store.readPiece cid)

theorem takeHeld_eq (ids : List B32) (out : List CodedPiece) :
    store.takeHeld cid limit ids out = out ++ (ids.filterMap (store.readPiece cid)).take
      (limit - out.length) := by
  induction ids generalizing out with
  | nil => simp [takeHeld]
  | cons pid ids ih =>
    rw [takeHeld]
    split_ifs with hf
    · simp [Nat.sub_eq_zero_of_le hf]
    · cases hr : store.readPiece cid pid with
      | none => simp [ih, hr]
      | some piece =>
        obtain ⟨n, hn⟩ : ∃ n, limit - out.length = n + 1 := ⟨limit - out.length - 1, by omega⟩
        simp [ih, hr, hn, show limit - (out.length + 1) = n by omega]

theorem length_takeHeld (state : CidState) :
    (store.takeHeld cid limit (state.pieceIds.filter (· ∉ exclude)) []).length
      = min limit (store.unexcluded cid state exclude).length := by
  rw [takeHeld_eq]
  simp [unexcluded]

/-- There is a piece of the sources that is not excluded. -/
def PieceLeft (sources : List Bytes) (pieceLen : ℕ) (exclude : List B32) : Prop :=
  ∃ vector : Bytes, vector.length = sources.length ∧ anyNonzero vector = true
    ∧ (CodedPiece.mk vector (combine sources pieceLen vector)).pieceId ∉ exclude

theorem exists_topUp (hc : checkSources sources = .ok pieceLen)
    (hl : PieceLeft sources pieceLen exclude) (turns : ℕ) (out : List CodedPiece)
    (ht : limit ≤ out.length + turns) :
    ∃ rng, ∀ rounds, ∃ r, topUp (rounds + 1) sources exclude limit (turns + 1) out rng
      = some r := by
  obtain ⟨vector, hlen, hne, hid⟩ := hl
  induction turns generalizing out with
  | zero => exact ⟨Stream'.const 0, fun rounds => ⟨_, by rw [topUp, if_pos (by omega)]⟩⟩
  | succ turns ih =>
    obtain ⟨rng, h⟩ := ih (out ++ [⟨vector, combine sources pieceLen vector⟩]) (by simp; omega)
    refine ⟨vector ++ₛ rng, fun rounds => ?_⟩
    rw [topUp]
    split_ifs
    · exact ⟨_, rfl⟩
    · simp only [encode_append hc hlen hne, if_neg hid]
      exact h rounds

theorem pieceLeft_of_topUp (hc : checkSources sources = .ok pieceLen)
    {r : Except StoreError (List CodedPiece)}
    (h : topUp rounds sources exclude limit turns out rng = some r) (hout : out.length < limit) :
    PieceLeft sources pieceLen exclude := by
  induction turns generalizing out rng with
  | zero => simp [topUp] at h
  | succ turns ih =>
    rw [topUp, if_neg (by omega)] at h
    simp only [encode, hc] at h
    cases hd : drawVector sources.length rounds rng with
    | none => simp [hd] at h
    | some draw =>
      simp only [hd, Option.map_some] at h
      by_cases hid : (CodedPiece.mk draw.1 (combine sources pieceLen draw.1)).pieceId ∈ exclude
      · rw [if_pos hid] at h
        exact ih h hout
      · obtain ⟨hlen, hne⟩ := drawVector_eq_some hd
        exact ⟨draw.1, hlen, hne, hid⟩

theorem servePieces_of_content {state : CidState} (hs : store.index[cid]? = some state)
    (hc : store.content cid = some content) :
    servePieces rounds store cid exclude limit rng =
      let out := store.takeHeld cid limit (state.pieceIds.filter (· ∉ exclude)) []
      if out.length < limit then
        topUp rounds (splitSources content state.gen.k.val state.gen.pieceLen.val) exclude limit
          rounds out rng
      else some (.ok out) := by
  have hhas : state.hasContent = true := by
    by_contra h
    simp [PieceStore.content, hs, h] at hc
  simp [servePieces, hs, hc, hhas]

/-- **A request to a node with the content can be answered exactly when** enough held pieces are not
excluded, there is nothing to encode, or a piece is left. -/
theorem serve_terminates_iff {state : CidState} (hstate : store.index[cid]? = some state)
    (hk : 1 ≤ state.gen.k.val) (hcontent : store.content cid = some content) :
    (∃ rng rounds r, servePieces rounds store cid exclude limit rng = some r) ↔
      limit ≤ (store.unexcluded cid state exclude).length ∨ state.gen.pieceLen.val = 0
        ∨ PieceLeft (splitSources content state.gen.k.val state.gen.pieceLen.val)
          state.gen.pieceLen.val
          exclude := by
  simp only [servePieces_of_content hstate hcontent, length_takeHeld]
  by_cases hheld : limit ≤ (store.unexcluded cid state exclude).length
  · simp [hheld]
  have hlt : min limit (store.unexcluded cid state exclude).length < limit := by omega
  simp only [if_pos hlt, hheld, false_or]
  rcases Nat.eq_zero_or_pos state.gen.pieceLen.val with hzero | hpos
  · -- no source can be encoded, so the first draw fails
    obtain ⟨e, he⟩ := checkSources_splitSources_zero content state.gen.k.val
    simp only [hzero, true_or, iff_true]
    refine ⟨Stream'.const 0, 1, .error (.erasure e), ?_⟩
    rw [topUp, length_takeHeld, if_neg (by omega), encode, he]
  · have hcheck := (checkSources_splitSources content hk).mpr hpos
    simp only [hpos.ne', false_or]
    constructor
    · rintro ⟨rng, rounds, r, h⟩
      exact pieceLeft_of_topUp hcheck h (by rw [length_takeHeld]; omega)
    · intro hleft
      obtain ⟨rng, h⟩ := exists_topUp hcheck hleft limit _ (Nat.le_add_left _ _)
      obtain ⟨r, hr⟩ := h limit
      exact ⟨rng, limit + 1, r, hr⟩

/-- A node that holds the one-byte content `[7]` as one source, and no pieces of it. -/
def oneByte : PieceStore :=
  ⟨(∅ : BTreeMap B32 CidState).insert 0 ⟨⟨1, 1, 1, []⟩, [], true⟩, ∅, ∅,
    (∅ : BTreeMap B32 Bytes).insert 0 [7]⟩

theorem serve_terminates_iff_oneByte :
    (∃ rng rounds r, servePieces rounds oneByte 0 [5] 1 rng = some r) ↔
      1 ≤ (oneByte.unexcluded 0 ⟨⟨1, 1, 1, []⟩, [], true⟩ [5]).length ∨ (1 : U64).val = 0
        ∨ PieceLeft (splitSources [7] (1 : Word 32).val (1 : U64).val) (1 : U64).val [5] :=
  serve_terminates_iff (by decide +kernel) (by decide) (by decide +kernel)

def allIds (source : Bytes) : List B32 :=
  (finRange 256).map fun c => (CodedPiece.mk [c] (combine [source] source.length [c])).pieceId

/-- **Excluding the pieces of a single source keeps its holder searching forever.** -/
theorem excluded_pieces_searched_forever :
    ¬ ∃ rng rounds r, servePieces rounds oneByte 0 (allIds [7]) 1 rng = some r := by
  rintro ⟨rng, rounds, r, hr⟩
  have hstate : oneByte.index[(0 : B32)]? = some ⟨⟨1, 1, 1, []⟩, [], true⟩ := by decide +kernel
  have hcontent : oneByte.content 0 = some [7] := by decide +kernel
  have hsources : splitSources [7] 1 1 = [[7]] := by decide
  have hheld : oneByte.takeHeld 0 1 [] [] = [] := rfl
  rw [servePieces_of_content hstate hcontent] at hr
  have htop : topUp rounds [[7]] (allIds [7]) 1 rounds [] rng = some r := by
    simpa [hsources, hheld] using hr
  obtain ⟨vector, hlen, -, hid⟩ :=
    pieceLeft_of_topUp (by decide : checkSources [[7]] = .ok 1) htop (by simp)
  obtain ⟨c, rfl⟩ := length_eq_one_iff.mp hlen
  exact hid (mem_map.mpr ⟨c, mem_finRange c, rfl⟩)

end PieceStore

end Zephcraft.Store
