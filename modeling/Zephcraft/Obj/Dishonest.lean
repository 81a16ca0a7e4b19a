import Zephcraft.Obj.Get

/-!
# Obj/Dishonest — a fetch among providers that may lie

The first usable response decides by which tags the pieces are verified, and one piece that fails
them ends the fetch. Where the other providers send nothing usable, or pieces of the content, one
provider that has it all is enough.
-/

namespace Zephcraft.Obj

open Erasure Store PieceStore List Function Decoder VTags Word

/-! ## A content and its providers -/

/-- A content with the generation it is published under. -/
structure Content (D : Derivation) where
  data : Bytes
  gen : Generation
  sources : List Bytes
  tags : VTags
  length_sources : sources.length = gen.k.val
  check : checkSources sources = .ok gen.pieceLen.val
  flatten : sources.flatten.take gen.totalLen.val = data
  decode_vtags : VTags.decode gen.vtags = some tags
  verify : ∀ piece, Fits sources gen.k.val gen.pieceLen.val piece → VTags.verify D tags piece = true

namespace PieceResponse

def gen (resp : PieceResponse) : Generation := ⟨resp.k, resp.pieceLen, resp.totalLen, resp.vtags⟩

/-- A response that is not passed over. -/
def usable (resp : PieceResponse) : Bool := resp.found && !resp.pieces.isEmpty

end PieceResponse

/-- What the others answer in a round: the providers before the honest one, and those after it. -/
structure Others where
  before : List (Option PieceResponse)
  after : List (Option PieceResponse)

namespace Content

variable {D : Derivation} (c : Content D)

/-- The answer of a provider of the content: its generation, and one piece. -/
def respond (piece : CodedPiece) : PieceResponse :=
  ⟨true, c.gen.k, c.gen.pieceLen, c.gen.totalLen, c.gen.vtags, [piece]⟩

/-- The results of the rounds, one piece of the honest provider in each. -/
def answers : List Others → List CodedPiece → List (List (Option PieceResponse)) :=
  zipWith fun o piece => o.before ++ some (c.respond piece) :: o.after

@[simp] theorem answers_cons (o : Others) (others : List Others) (piece : CodedPiece)
    (pieces : List CodedPiece) :
    c.answers (o :: others) (piece :: pieces)
      = (o.before ++ some (c.respond piece) :: o.after) :: c.answers others pieces := rfl

/-- The sources themselves, as pieces. -/
def units : List CodedPiece := (finRange c.gen.k.val).map fun i =>
  let vector := (finRange c.gen.k.val).map fun j => if i = j then 1 else 0
  ⟨vector, combine c.sources c.gen.pieceLen.val vector⟩

/-- A combination of the content's sources. -/
abbrev Fits (piece : CodedPiece) : Prop :=
  Erasure.Fits c.sources c.gen.k.val c.gen.pieceLen.val piece

theorem length_source : ∀ s ∈ c.sources, s.length = c.gen.pieceLen.val :=
  (checkSources_eq_ok.mp c.check).2.2

theorem k_pos : 0 < c.gen.k.val := by
  rw [← c.length_sources]
  exact length_pos_iff.mpr (checkSources_eq_ok.mp c.check).1

variable {c} {piece : CodedPiece}

theorem vec_unit (i : Fin c.gen.k.val) :
    vec c.gen.k.val ((finRange c.gen.k.val).map fun j => if i = j then 1 else 0)
      = Pi.single i 1 := by
  funext j
  simp only [vec, getD_eq_getElem?_getD, getElem?_map, Pi.single_apply]
  simp [eq_comm]
  split_ifs <;> rfl

theorem produced_of_mem_units (h : piece ∈ c.units) : Produced c.sources piece := by
  obtain ⟨i, -, rfl⟩ := mem_map.mp h
  have hany : anyNonzero ((finRange c.gen.k.val).map fun j => if i = j then (1 : Byte) else 0)
      = true :=
    anyNonzero_iff.mpr ⟨1, mem_map.mpr ⟨i, mem_finRange i, if_pos rfl⟩, by decide⟩
  have he : encode 1 c.sources (_ ++ₛ .const 0) = some (.ok _, .const 0) :=
    encode_append c.check (by simp [c.length_sources]) hany
  exact .encode he

theorem fits_of_mem_units (h : piece ∈ c.units) : c.Fits piece :=
  (produced_of_mem_units h).fits c.length_sources c.length_source

/-- Pieces that do not span leave a source out. -/
theorem exists_unit_notMem {S : Submodule GF256 (Fin c.gen.k.val → GF256)} (hS : S ≠ ⊤) :
    ∃ piece ∈ c.units, vec c.gen.k.val piece.codingVector ∉ S := by
  by_contra hall
  push Not at hall
  refine hS (top_le_iff.mp ?_)
  rw [← (Pi.basisFun GF256 (Fin c.gen.k.val)).span_eq, Submodule.span_le]
  rintro v ⟨i, rfl⟩
  have hi := hall _ (mem_map.mpr ⟨i, mem_finRange i, rfl⟩)
  rw [vec_unit] at hi
  rwa [Pi.basisFun_apply]

end Content

/-! ## One round -/

namespace Fetch

/-- The fetch goes by the content's tags and has taken in the pieces `seen`, all of them the
content's. -/
structure Has {D : Derivation} (c : Content D) (f : Fetch) (seen : List CodedPiece) : Prop where
  decoder : ∃ d : Decoder c.gen.k.val c.gen.pieceLen.val, f.known = some ⟨c.tags, _, _, d⟩
    ∧ d.Reduced ∧ d.Agrees c.sources ∧ d.space = Decoder.span c.gen.k.val seen
  totalLen : f.totalLen = c.gen.totalLen
  exclude : f.exclude = (seen.map CodedPiece.pieceId).reverse
  fits : ∀ p ∈ seen, c.Fits p

variable {D : Derivation} {c : Content D} {f : Fetch} {seen : List CodedPiece} {piece : CodedPiece}

theorem Has.isComplete_iff (h : f.Has c seen) :
    f.isComplete = true ↔ Decoder.span c.gen.k.val seen = ⊤ := by
  obtain ⟨d, hk, hred, -, hs⟩ := h.decoder
  rw [isComplete, hk, Option.any_some, ← hs]
  refine ⟨space_of_isComplete hred, fun htop => ?_⟩
  rw [Decoder.isComplete_iff, rank_eq hred, htop, finrank_top, Module.finrank_fin_fun]

/-- A piece of the content that is new is taken in. -/
theorem Has.takePiece (h : f.Has c seen) (hf : c.Fits piece) (hnew : piece.pieceId ∉ f.exclude) :
    ∃ f', f.takePiece D piece = .ok (true, f') ∧ f'.Has c (seen ++ [piece])
      ∧ f'.progressed = true := by
  obtain ⟨d, hk, hred, ha, hs⟩ := h.decoder
  obtain ⟨b, d', hadd, hred', hs', -⟩ := addPiece_spec hred ⟨hf.length_vector, hf.length_data⟩
  rw [Fetch.takePiece, hk]
  simp only [c.verify piece hf, not_true_eq_false, if_false, if_neg hnew, hadd]
  refine ⟨_, rfl, ⟨⟨d', rfl, hred', ha.addPiece hadd hf.agrees, ?_⟩, h.totalLen, ?_, ?_⟩, rfl⟩
  · rw [hs', hs, span_concat]
  · simp [h.exclude]
  · exact forall_mem_append.mpr ⟨h.fits, forall_mem_singleton.mpr hf⟩

/-- One that is not is passed over. -/
theorem Has.takePiece_of_mem (h : f.Has c seen) (hf : c.Fits piece)
    (hold : piece.pieceId ∈ f.exclude) :
    f.takePiece D piece = .ok (false, f) := by
  obtain ⟨d, hk, -⟩ := h.decoder
  rw [Fetch.takePiece, hk]
  simp [c.verify piece hf, hold]

theorem Has.takeResponse (h : f.Has c seen) (resp : PieceResponse) :
    f.takeResponse resp = .ok f := by
  obtain ⟨d, hk, -⟩ := h.decoder
  rw [Fetch.takeResponse, hk]

/-- The pieces that are looked at when items are worked off. -/
def met (D : Derivation) : List Item → Fetch → List CodedPiece
  | [], _ => []
  | .response resp :: items, f => (f.takeResponse resp).toOption.elim [] (met D items)
  | .piece _ piece :: items, f => piece :: (f.takePiece D piece).toOption.elim [] fun taken =>
    met D items taken.2
  | .done :: items, f => if f.isComplete then [] else met D items f

/-- What working off items comes to where the pieces that are met are the content's: the pieces
taken in are among them, and unless it was left because there are enough, all pieces of the items
are in. -/
structure WorkedOff (c : Content D) (items : List Item) (f : Fetch)
    (seen taken : List CodedPiece) (left : Bool) (f' : Fetch) : Prop where
  has : f'.Has c (seen ++ taken)
  complete : left = true → f'.isComplete = true
  all : left = false → ∀ provider p, Item.piece provider p ∈ items → p.pieceId ∈ f'.exclude
  progressed : f.progressed = true ∨ taken ≠ [] → f'.progressed = true
  met : ∀ p ∈ taken, p ∈ f.met D items

/-- An item before those: it took in the pieces `t`. -/
theorem WorkedOff.cons {items : List Item} {item : Item} {f₁ f' : Fetch} {t taken : List CodedPiece}
    {left : Bool} (hw : WorkedOff c items f₁ (seen ++ t) taken left f') (hf₁ : f₁.Has c (seen ++ t))
    (hit : ∀ provider p, item = .piece provider p → p.pieceId ∈ f₁.exclude)
    (hpr : f.progressed = true ∨ t ≠ [] → f₁.progressed = true)
    (hmet : f.met D (item :: items) = t ++ f₁.met D items
      ∨ t = [] ∧ f₁.met D items ⊆ f.met D (item :: items)) :
    WorkedOff c (item :: items) f seen (t ++ taken) left f' where
  has := by simpa using hw.has
  complete := hw.complete
  all hl provider p hp := by
    rcases mem_cons.mp hp with hp | hp
    · have hin := hit provider p hp.symm
      rw [hf₁.exclude, mem_reverse] at hin
      rw [hw.has.exclude, mem_reverse, map_append]
      exact mem_append_left _ hin
    · exact hw.all hl provider p hp
  progressed := by
    rintro (hf | hta)
    · exact hw.progressed (.inl (hpr (.inl hf)))
    · by_cases hnil : t = []
      · subst hnil
        exact hw.progressed (.inr hta)
      · exact hw.progressed (.inl (hpr (.inr hnil)))
  met p hp := by
    rcases hmet with heq | ⟨rfl, hsub⟩
    · rw [heq]
      exact mem_append.mpr ((mem_append.mp hp).imp_right (hw.met p))
    · exact hsub (hw.met p hp)

theorem Has.workOff {items : List Item} (h : f.Has c seen) (hmet : ∀ p ∈ f.met D items, c.Fits p) :
    ∃ left f' taken, workOff D items f = .ok (left, f')
      ∧ WorkedOff c items f seen taken left f' := by
  have hnil : f.Has c (seen ++ []) := by simpa using h
  induction items generalizing f seen with
  | nil => exact ⟨false, f, [], rfl, ⟨hnil, by simp, by simp, by simp, by simp⟩⟩
  | cons item items ih =>
    -- an item that leaves the fetch as it is
    have hsame : f.met D items ⊆ f.met D (item :: items)
        → workOff D (item :: items) f = Fetch.workOff D items f →
        (∀ provider p, item = .piece provider p → p.pieceId ∈ f.exclude) →
        ∃ left f' taken, Fetch.workOff D (item :: items) f = .ok (left, f')
          ∧ WorkedOff c (item :: items) f seen taken left f' := fun hsub heq hite => by
      obtain ⟨left, f', taken, hwo, hw⟩ := ih h (fun p hp => hmet p (hsub hp)) hnil
      exact ⟨left, f', taken, heq.trans hwo,
        WorkedOff.cons (t := []) (by simpa using hw) hnil hite (by simp) (.inr ⟨rfl, hsub⟩)⟩
    cases item with
    | response resp =>
      refine hsame ?_ ?_ (by simp)
      · rw [Fetch.met, h.takeResponse]
        exact List.Subset.refl _
      · rw [Fetch.workOff, h.takeResponse]
        rfl
    | done =>
      by_cases hc : f.isComplete = true
      · exact ⟨true, f, [], if_pos hc, ⟨hnil, fun _ => hc, by simp, by simp, by simp⟩⟩
      · refine hsame ?_ (if_neg hc) (by simp)
        rw [Fetch.met, if_neg hc]
        exact List.Subset.refl _
    | piece provider p =>
      have hf : c.Fits p := hmet p mem_cons_self
      by_cases hold : p.pieceId ∈ f.exclude
      · have ht := h.takePiece_of_mem hf hold
        refine hsame ?_ ?_ (by rintro _ _ ⟨⟩; exact hold)
        · rw [Fetch.met, ht]
          exact subset_cons_self _ _
        · rw [Fetch.workOff, ht]
          rfl
      · obtain ⟨f₁, ht, hf₁, hpr⟩ := h.takePiece hf hold
        have hcons : f.met D (.piece provider p :: items) = [p] ++ f₁.met D items := by
          rw [Fetch.met, ht]
          rfl
        obtain ⟨left, f', taken, hwo, hw⟩ :=
          ih hf₁ (fun q hq => hmet q (hcons ▸ mem_append_right _ hq)) (by simpa using hf₁)
        refine ⟨left, f', [p] ++ taken, ?_, hw.cons hf₁ ?_ (fun _ => hpr) (.inl hcons)⟩
        · rw [Fetch.workOff, ht]
          exact hwo
        · rintro _ _ ⟨⟩
          simp [hf₁.exclude]

end Fetch

/-! ## Round after round -/

namespace Fetch

/-- The fetch once it goes by the content's tags. -/
def start {D : Derivation} (c : Content D) : Fetch :=
  ⟨some ⟨c.tags, c.gen.k.val, c.gen.pieceLen.val, .new _ _⟩, c.gen.totalLen, [], false⟩

/-- The fetch lacks a piece: its decoder, or the one it will start with, would take it in as a new
direction. -/
def lacks {D : Derivation} (c : Content D) (f : Fetch) (piece : CodedPiece) : Bool :=
  (f.known.or (start c).known).any fun known => (known.decoder.addPiece piece).toOption.any Prod.fst

/-- What the honest provider sends: a source that the fetch lacks. -/
def choose {D : Derivation} (c : Content D) (f : Fetch) : CodedPiece :=
  (c.units.find? (f.lacks c)).getD ⟨[], []⟩

/-- What passes between a fetch and the honest provider in a round, and the pieces the fetch looks
at. -/
structure Exchange where
  exclude : List B32
  sent : CodedPiece
  met : List CodedPiece

/-- The exchanges of a fetch, one a round, until it is complete, fails or a round has brought
nothing. -/
def exchanges {D : Derivation} (c : Content D) (providers : List B32) :
    List Others → Fetch → List Exchange
  | [], _ => []
  | o :: others, f =>
    if f.isComplete then []
    else
      let items := round providers (o.before ++ some (c.respond (f.choose c)) :: o.after)
      let start := { f with progressed := false }
      ⟨f.exclude, f.choose c, start.met D items⟩ :: match workOff D items start with
        | .error _ => []
        | .ok worked => if worked.1 ∨ ¬ worked.2.progressed then []
          else exchanges c providers others worked.2

variable {D : Derivation} {c : Content D} {f : Fetch} {seen play : List CodedPiece}
  {piece : CodedPiece} {before after : List B32} {honest : B32} {o : Others} {others : List Others}

/-- The work of a round: that of the providers before the honest one, its own, and that of those
after it. -/
theorem round_eq (hlen : (before ++ honest :: after).length ≤ fanout)
    (ho : o.before.length = before.length) :
    round (before ++ honest :: after) (o.before ++ some (c.respond piece) :: o.after)
      = (before.zip o.before).flatMap itemsOf
        ++ (itemsOf (honest, some (c.respond piece)) ++ (after.zip o.after).flatMap itemsOf) := by
  rw [round, take_of_length_le hlen, zip_append ho.symm, zip_cons_cons, flatMap_append,
    flatMap_cons]

theorem piece_mem_round (hlen : (before ++ honest :: after).length ≤ fanout)
    (ho : o.before.length = before.length) :
    Item.piece honest piece ∈ round (before ++ honest :: after) (o.before ++ some (c.respond piece)
      :: o.after) := by
  rw [round_eq hlen ho]
  simp [itemsOf, Content.respond]

/-- **While pieces are lacking, there is one to send**: a source outside the span of what the fetch
has. -/
theorem Has.choose (h : f.Has c seen) (hin : f.isComplete = false) :
    f.choose c ∈ c.units ∧ vec c.gen.k.val (f.choose c).codingVector
      ∉ Decoder.span c.gen.k.val seen := by
  obtain ⟨d, hk, hred, -, hs⟩ := h.decoder
  have hlacks : ∀ unit ∈ c.units, f.lacks c unit = true
      ↔ vec c.gen.k.val unit.codingVector ∉ Decoder.span c.gen.k.val seen := fun unit hu => by
    have hf := Content.fits_of_mem_units hu
    obtain ⟨b, d', hadd, -, -, hb⟩ := addPiece_spec hred ⟨hf.length_vector, hf.length_data⟩
    rw [lacks, hk, ← hs, ← hb, Option.some_or, Option.any_some, hadd]
    rfl
  have htop : Decoder.span c.gen.k.val seen ≠ ⊤ := fun htop => by
    rw [h.isComplete_iff.mpr htop] at hin
    cases hin
  obtain ⟨unit, hu, hout⟩ := Content.exists_unit_notMem htop
  obtain ⟨found, hfound⟩ := Option.isSome_iff_exists.mp
    (find?_isSome.mpr ⟨unit, hu, (hlacks unit hu).mpr hout⟩)
  have hmem := mem_of_find?_eq_some hfound
  rw [Fetch.choose, hfound, Option.getD_some]
  exact ⟨hmem, (hlacks found hmem).mp (find?_some hfound)⟩

variable (hlen : (before ++ honest :: after).length ≤ fanout)
  (hplay : ∀ p ∈ play, ∀ q ∈ play, p.pieceId = q.pieceId → p = q) (hunits : ∀ p ∈ c.units, p ∈ play)

theorem notMem_exclude_of_notMem_span (h : f.Has c seen) (hs : ∀ p ∈ seen, p ∈ play)
    (hpl : ∀ p ∈ play, ∀ q ∈ play, p.pieceId = q.pieceId → p = q) (hp : piece ∈ play)
    (hout : vec c.gen.k.val piece.codingVector ∉ Decoder.span c.gen.k.val seen) :
    piece.pieceId ∉ f.exclude := by
  rw [h.exclude, mem_reverse, mem_map]
  rintro ⟨q, hq, hid⟩
  obtain rfl := hpl q (hs q hq) piece hp hid
  exact hout (Submodule.subset_span ⟨q, hq, rfl⟩)

include hlen hplay hunits in
/-- **A round with a piece of the honest provider that is not in the span**: there are enough pieces
after it, or the rank has gone up. -/
theorem Has.round (h : f.Has c seen) (hs : ∀ p ∈ seen, p ∈ play)
    (ho : o.before.length = before.length) (hpi : piece ∈ c.units)
    (hout : vec c.gen.k.val piece.codingVector ∉ Decoder.span c.gen.k.val seen) {items : List Item}
    (hitems : items = Fetch.round (before ++ honest :: after) (o.before ++ some (c.respond piece)
      :: o.after)) (hmet : ∀ p ∈ f.met D items, c.Fits p ∧ p ∈ play) :
    ∃ left f' taken, Fetch.workOff D items f = .ok (left, f')
      ∧ f'.Has c (seen ++ taken) ∧ (∀ p ∈ taken, p ∈ play) ∧ (left = true → f'.isComplete = true)
      ∧ (left = false → f'.progressed = true ∧ Module.finrank GF256 (Decoder.span c.gen.k.val seen)
        < Module.finrank GF256 (Decoder.span c.gen.k.val (seen ++ taken))) := by
  obtain ⟨left, f', taken, hwo, hw⟩ := h.workOff fun p hp => (hmet p hp).1
  have ht : ∀ p ∈ taken, p ∈ play := fun p hp => (hmet p (hw.met p hp)).2
  refine ⟨left, f', taken, hwo, hw.has, ht, hw.complete, fun hl => ?_⟩
  -- the honest piece is in, by itself: no other piece has its id
  have hin := hw.all hl honest piece (hitems ▸ piece_mem_round hlen ho)
  have hnew := notMem_exclude_of_notMem_span h hs hplay (hunits piece hpi) hout
  rw [h.exclude, mem_reverse] at hnew
  rw [hw.has.exclude, mem_reverse, map_append, mem_append, or_iff_right hnew, mem_map] at hin
  obtain ⟨q, hq, hid⟩ := hin
  obtain rfl := hplay q (ht q hq) piece (hunits piece hpi) hid
  refine ⟨hw.progressed (.inr (ne_nil_of_mem hq)),
    Submodule.finrank_lt_finrank_of_lt (lt_of_le_of_ne ?_ ?_)⟩
  · exact Submodule.span_mono fun v ⟨p, hp, hv⟩ => ⟨p, mem_append_left _ hp, hv⟩
  · intro heq
    exact hout (heq ▸ Submodule.subset_span ⟨q, mem_append_right _ hq, rfl⟩)

include hlen hplay hunits in
/-- **As many rounds as the rank lacks are enough**, whatever would have been sent in those that are
not needed. -/
theorem Has.rounds (hshape : ∀ o ∈ others, o.before.length = before.length) (h : f.Has c seen)
    (hs : ∀ p ∈ seen, p ∈ play)
    (hr : c.gen.k.val ≤ others.length + Module.finrank GF256 (Decoder.span c.gen.k.val seen))
    (hmet : ∀ x ∈ exchanges c (before ++ honest :: after) others f, ∀ p ∈ x.met, c.Fits p
      ∧ p ∈ play) :
    (∀ x ∈ exchanges c (before ++ honest :: after) others f, x.sent ∈ c.units
      ∧ x.sent.pieceId ∉ x.exclude) ∧ ∀ more, ∃ f' seen', Fetch.rounds D (before ++ honest :: after)
          (c.answers others ((exchanges c (before ++ honest :: after) others f).map Exchange.sent
            ++ more)) f = .ok f'
        ∧ f'.Has c seen' ∧ f'.isComplete = true := by
  induction others generalizing f seen with
  | nil =>
    have htop : Decoder.span c.gen.k.val seen = ⊤ := Submodule.eq_top_of_finrank_eq
      (le_antisymm (Submodule.finrank_le _) (by simpa [Module.finrank_fin_fun] using hr))
    exact ⟨by simp [exchanges], fun more =>
      ⟨f, seen, by simp [exchanges, Content.answers, Fetch.rounds], h, h.isComplete_iff.mpr htop⟩⟩
  | cons o others ih =>
    obtain ⟨ho, hshape⟩ := forall_mem_cons.mp hshape
    cases hin : f.isComplete with
    | true =>
      -- there are enough pieces: no request is sent
      have hnone : exchanges c (before ++ honest :: after) (o :: others) f = [] := if_pos hin
      rw [hnone]
      refine ⟨by simp, fun more => ⟨f, seen, ?_, h, hin⟩⟩
      cases more with
      | nil => rfl
      | cons piece more => exact if_pos hin
    | false =>
      obtain ⟨hpi, hout⟩ := h.choose hin
      have hnew := notMem_exclude_of_notMem_span h hs hplay (hunits _ hpi) hout
      have hst : { f with progressed := false }.Has c seen :=
        ⟨h.decoder, h.totalLen, h.exclude, h.fits⟩
      rw [exchanges, if_neg (by simp [hin])] at hmet ⊢
      obtain ⟨hfirst, hmet⟩ := forall_mem_cons.mp hmet
      obtain ⟨left, f', taken, hw, hf', ht, hl, hon⟩ :=
        hst.round hlen hplay hunits hs ho hpi hout rfl hfirst
      cases left with
      | true =>
        simp only [hw, true_or, if_true, forall_mem_singleton, map_cons, map_nil]
        refine ⟨⟨hpi, hnew⟩, fun more => ⟨f', _, ?_, hf', hl rfl⟩⟩
        simp [Fetch.rounds, hin, hw, bind, Except.bind, pure, Except.pure]
      | false =>
        obtain ⟨hpr, hri⟩ := hon rfl
        simp only [hw, hpr, Bool.false_eq_true, not_true_eq_false, or_self, if_false] at hmet ⊢
        obtain ⟨hsent, hgo⟩ := ih hshape hf' (forall_mem_append.mpr ⟨hs, ht⟩)
          (by rw [length_cons] at hr; omega) hmet
        refine ⟨forall_mem_cons.mpr ⟨⟨hpi, hnew⟩, hsent⟩, fun more => ?_⟩
        obtain ⟨f'', seen', hro, hf'', hco⟩ := hgo more
        refine ⟨f'', seen', ?_, hf'', hco⟩
        simpa [Fetch.rounds, hin, hw, hpr, bind, Except.bind] using hro

/-! ## The first response, and the last piece -/

theorem has_start : (start c).Has c [] where
  decoder := by
    have hnone : ∀ p ∈ [], Produced c.sources p := by simp
    obtain ⟨d, hd, hs⟩ := addPieces_spec c.length_sources c.length_source hnone
    cases hd
    exact ⟨_, rfl, hs⟩
  totalLen := rfl
  exclude := rfl
  fits := by simp

theorem itemsOf_of_usable {resp : PieceResponse} (h : resp.usable = true) (provider : B32) :
    itemsOf (provider, some resp)
      = .response resp :: (resp.pieces.map (.piece provider) ++ [.done]) := by
  rw [itemsOf, if_neg (by simpa [PieceResponse.usable] using h)]

theorem itemsOf_of_not_usable {resp : PieceResponse} (h : resp.usable = false) (provider : B32) :
    itemsOf (provider, some resp) = [] := by
  rw [itemsOf, if_pos (by simpa [PieceResponse.usable, imp_iff_not_or] using h)]

/-- The work on some answers begins with the first usable one. -/
theorem flatMap_itemsOf {providers : List B32} {results : List (Option PieceResponse)}
    (hlen : results.length = providers.length) :
    ((results.filterMap id).find? PieceResponse.usable = none
      ∧ (providers.zip results).flatMap itemsOf = [])
      ∨ ∃ resp rest, (results.filterMap id).find? PieceResponse.usable = some resp
        ∧ (providers.zip results).flatMap itemsOf = .response resp :: rest := by
  induction results generalizing providers with
  | nil => exact .inl ⟨rfl, by simp⟩
  | cons r results ih =>
    obtain ⟨provider, providers, rfl⟩ := exists_cons_of_length_eq_add_one hlen.symm
    have ih := ih (Nat.succ.inj hlen)
    rw [zip_cons_cons, flatMap_cons]
    cases r with
    | none => exact ih
    | some resp =>
      cases hu : resp.usable with
      | true =>
        rw [itemsOf_of_usable hu]
        exact .inr ⟨resp, _, by simp [hu], rfl⟩
      | false =>
        rw [itemsOf_of_not_usable hu]
        simpa [hu] using ih

theorem takeResponse_new {resp : PieceResponse} (h : resp.gen = c.gen) :
    takeResponse new resp = .ok (start c) := by
  have hd : VTags.decode resp.vtags = some c.tags := by
    rw [← c.decode_vtags, ← h]
    rfl
  rw [takeResponse, start, ← h, new]
  simp only [hd]
  rfl

/-- **With the content's own generation in the first response** the fetch goes by the content's tags
from the start. -/
theorem workOff_new (hlen : (before ++ honest :: after).length ≤ fanout)
    (ho : o.before.length = before.length)
    (hf : ∀ resp ∈ (o.before.filterMap id).find? PieceResponse.usable, resp.gen = c.gen)
    (piece : CodedPiece) :
    let items :=
      Fetch.round (before ++ honest :: after) (o.before ++ some (c.respond piece) :: o.after)
    Fetch.workOff D items new = Fetch.workOff D items (start c)
      ∧ new.met D items = (start c).met D items := by
  have hb : ∀ resp rest, resp.gen = c.gen →
      Fetch.workOff D (.response resp :: rest) new = Fetch.workOff D (.response resp :: rest)
        (start c) ∧ new.met D (.response resp :: rest)
          = (start c).met D (.response resp :: rest) := by
    intro resp rest hgen
    simp only [Fetch.workOff, met, takeResponse_new hgen, has_start.takeResponse, and_self]
  rw [round_eq hlen ho]
  rcases flatMap_itemsOf ho with ⟨-, hnil⟩ | ⟨resp, rest, hfi, hc⟩
  · rw [hnil, itemsOf_of_usable rfl]
    exact hb _ _ rfl
  · rw [hc]
    exact hb _ _ (hf resp hfi)

theorem isComplete_start : (start c).isComplete = false := decide_eq_false c.k_pos.ne

/-- … and so does all that follows. -/
theorem rounds_new {providers : List B32} {results : List (Option PieceResponse)}
    (more : List (List (Option PieceResponse)))
    (h : Fetch.workOff D (Fetch.round providers results) new
      = Fetch.workOff D (Fetch.round providers results) (start c)) :
    Fetch.rounds D providers (results :: more) new = Fetch.rounds D providers (results :: more)
      (start c) := by
  have hnew : new.isComplete = false := rfl
  have hw : Fetch.workOff D (Fetch.round providers results) { new with progressed := false }
      = Fetch.workOff D (Fetch.round providers results) { start c with progressed := false } := h
  simp only [Fetch.rounds, isComplete_start, hnew, hw]
  rfl

theorem exchanges_new (hlen : (before ++ honest :: after).length ≤ fanout)
    (ho : o.before.length = before.length)
    (hf : ∀ resp ∈ (o.before.filterMap id).find? PieceResponse.usable, resp.gen = c.gen)
    (others : List Others) :
    exchanges c (before ++ honest :: after) (o :: others) new
      = exchanges c (before ++ honest :: after) (o :: others) (start c) := by
  have hnew : new.isComplete = false := rfl
  obtain ⟨hw, hm⟩ := workOff_new (D := D) hlen ho hf (new.choose c)
  have hw' : Fetch.workOff D _ { new with progressed := false }
        = Fetch.workOff D _ { start c with progressed := false } := hw
  have hm' :
      { new with progressed := false }.met D _ = { start c with progressed := false }.met D _ := hm
  have hchoose : (start c).choose c = new.choose c := rfl
  simp only [exchanges, isComplete_start, hnew, hchoose, hw', hm']
  rfl

/-- **A piece that fails the tags ends the fetch.** -/
theorem workOff_polluted {resp : PieceResponse} (hgen : resp.gen = c.gen)
    (hbad : VTags.verify D c.tags piece = false) (provider : B32) (items : List Item) :
    Fetch.workOff D (.response resp :: .piece provider piece :: items) new = .error .polluted := by
  have ht : (start c).takePiece D piece = .error .polluted := if_pos (by simp [hbad])
  rw [Fetch.workOff, takeResponse_new hgen]
  change (start c).takePiece D piece >>= _ = _
  rw [ht]
  rfl

theorem Has.finish (h : f.Has c seen) (hc : f.isComplete = true) :
    f.finish (blake3 c.data) = .ok c.data := by
  obtain ⟨d, hk, hred, ha, -⟩ := h.decoder
  have hd : d.isComplete = true := by simpa [isComplete, hk] using hc
  rw [Fetch.finish, hk]
  simp [hd, decode_eq hred ha c.length_sources c.length_source hd, h.totalLen, c.flatten]

/-- Whatever was answered, what comes out has the id. -/
theorem blake3_of_finish {cid : B32} {bytes : Bytes} (h : f.finish cid = .ok bytes) :
    blake3 bytes = cid := by
  unfold Fetch.finish at h
  split at h
  · cases h
  · split_ifs at h
    split at h
    · cases h
    · dsimp only at h
      split_ifs at h with hid
      cases h
      exact hid

end Fetch

/-! ## The fetch -/

/-- **Whatever the providers answer, a fetch gives bytes with the id or an error.** -/
theorem blake3_of_get {D : Derivation} {env : Surroundings} {cid : B32} {bytes : Bytes}
    (h : get D env cid = .ok bytes) : blake3 bytes = cid := by
  unfold get at h
  split at h
  next content hs =>
    cases h
    unfold Holding.start at hs
    split at hs
    next hc =>
      cases hs
      exact of_decide_eq_true (Option.filter_eq_some_iff.mp hc).2
    next => cases hs
  next f _ =>
    split_ifs at h
    · exact Fetch.blake3_of_finish h
    · obtain ⟨f', -, hf⟩ := Except.bind_eq_ok.mp h
      exact Fetch.blake3_of_finish hf

/-- **One honest provider is enough among harmless ones.** If the first usable response brings the
content's generation, and the pieces the fetch looks at before it is complete are the content's,
then the honest provider gets it done with a source in each round, each new to the request it
answers, whatever is sent in the rounds that are not needed. Whatever is answered, a fetch returns
nothing else than bytes with the id. -/
theorem get_among_harmless {D : Derivation} {c : Content D} (hk : c.gen.k.val ≤ 64) {held : Holding}
    (hcontent : held.content = none) (hheld : held.pieces = []) {admitFetch : U64 → Bool}
    (hgate : admitFetch 0 = true) {before after : List B32} {honest : B32}
    (hproviders : (before ++ honest :: after).length ≤ 16) {others : List Others}
    (hrounds : others.length = Fetch.maxRounds)
    (hshape : ∀ o ∈ others, o.before.length = before.length)
    (hfirst : ∀ o ∈ others.head?,
      ∀ resp ∈ (o.before.filterMap id).find? PieceResponse.usable, resp.gen = c.gen) :
    let exchanges := Fetch.exchanges c (before ++ honest :: after) others .new
    let play := c.units ++ exchanges.flatMap Fetch.Exchange.met
    (∀ x ∈ exchanges, ∀ p ∈ x.met, c.Fits p) →
      (∀ p ∈ play, ∀ q ∈ play, p.pieceId = q.pieceId → p = q) →
      (∀ x ∈ exchanges, Produced c.sources x.sent ∧ x.sent.pieceId ∉ x.exclude)
      ∧ (∀ more, get D ⟨held, admitFetch, before ++ honest :: after,
          c.answers others (exchanges.map Fetch.Exchange.sent ++ more)⟩ (blake3 c.data)
        = .ok c.data)
      ∧ ∀ env bytes, get D env (blake3 c.data) = .ok bytes → blake3 bytes = blake3 c.data := by
  intro exchanges play hmet hids
  obtain ⟨o, others, rfl⟩ := exists_cons_of_length_eq_add_one hrounds
  have ho := hshape o mem_cons_self
  have hnew : exchanges = Fetch.exchanges c (before ++ honest :: after) (o :: others) (.start c) :=
    Fetch.exchanges_new hproviders ho (hfirst o rfl) others
  obtain ⟨hsent, hgo⟩ := (Fetch.has_start (c := c)).rounds hproviders hids
    (fun p hp => mem_append_left _ hp) hshape (by simp)
    (by rw [hrounds]; exact hk.trans (Nat.le_add_right _ _))
    (hnew ▸ fun x hx p hp => ⟨hmet x hx p hp, mem_append_right _ (mem_flatMap.mpr ⟨x, hx, hp⟩)⟩)
  rw [← hnew] at hsent hgo
  refine ⟨fun x hx => ⟨Content.produced_of_mem_units (hsent x hx).1, (hsent x hx).2⟩,
    fun more => ?_, fun env bytes => blake3_of_get⟩
  obtain ⟨f, seen, hrun, hf, hcomplete⟩ := hgo more
  have hstart : held.start D (blake3 c.data) = .inr .new := by
    simp only [Holding.start, hcontent, hheld, Option.filter_none, Fetch.ofLocal, isEmpty_nil,
      if_true]
    split
    · rfl
    · split <;> rfl
  have htake : ∀ pieces, (c.answers (o :: others) pieces).take Fetch.maxRounds
      = c.answers (o :: others) pieces := fun pieces =>
    take_of_length_le (by rw [Content.answers, length_zipWith, hrounds]; exact Nat.min_le_left _ _)
  have hnot : ¬ Fetch.new.isComplete = true := Bool.false_ne_true
  have hasked : ¬ ¬ admitFetch Fetch.new.totalLen = true := not_not.mpr hgate
  have hsome : ¬ (before ++ honest :: after).isEmpty = true := by simp
  simp only [get, hstart, htake, if_neg hnot, if_neg hasked, if_neg hsome]
  -- the first round is the same whether the tags were known before it or not
  have hsame : Fetch.rounds D (before ++ honest :: after)
      (c.answers (o :: others) (exchanges.map Fetch.Exchange.sent ++ more)) .new = .ok f := by
    rw [← hrun]
    have hne : exchanges ≠ [] := by
      rw [hnew, Fetch.exchanges, if_neg (Bool.eq_false_iff.mp Fetch.isComplete_start)]
      exact cons_ne_nil _ _
    obtain ⟨x, xs, hcons⟩ := exists_cons_of_ne_nil hne
    rw [hcons, map_cons, cons_append, Content.answers_cons]
    exact Fetch.rounds_new _ (Fetch.workOff_new hproviders ho (hfirst o rfl) x.sent).1
  rw [hsame]
  exact hf.finish hcomplete

/-! ## A published content -/

theorem length_drawSeeds (n : ℕ) (rng : Rng) : (drawSeeds n rng).1.length = n := by
  induction n generalizing rng with
  | zero => rfl
  | succ n ih => simp [drawSeeds, ih]

/-- The length of the pieces `publish` makes of a content over `k` sources. -/
def publishedLen (data : Bytes) (k : ℕ) : ℕ := max ((data.length + k - 1) / k) 1

theorem le_mul_publishedLen (data : Bytes) {k : ℕ} (hk : 0 < k) :
    data.length ≤ k * publishedLen data k := by
  have hdiv := Nat.lt_mul_div_succ (data.length + k - 1) hk
  have hle : k * ((data.length + k - 1) / k) ≤ k * publishedLen data k :=
    Nat.mul_le_mul_left k (le_max_left _ _)
  rw [Nat.mul_add, Nat.mul_one] at hdiv
  omega

theorem publishedLen_lt {data : Bytes} {k : ℕ} (hk : 0 < k) (hd : data.length < 2 ^ 64) :
    publishedLen data k < 2 ^ 64 := by
  refine max_lt (Nat.div_lt_of_lt_mul ?_) (by norm_num)
  have hmul : data.length + k ≤ k * 2 ^ 64 := by nlinarith
  omega

/-- What `publish` makes of a content over `k` sources. -/
def Content.published (D : Derivation) (data : Bytes) (k : ℕ) (rng : Rng)
    (hdata : data.length < 2 ^ 64) (hpos : 0 < k) (hk : k < 2 ^ 32) : Content D :=
  let sources := splitSources data k (publishedLen data k)
  let tags : VTags := ⟨schemeNullSpaceV1, truncate k, truncate (publishedLen data k),
    (drawSeeds VTags.L rng).1.map (tagOf D sources (publishedLen data k))⟩
  have hsources : sources.length = (truncate k : Word 32).val :=
    (length_splitSources (le_mul_publishedLen data hpos)).trans (Nat.mod_eq_of_lt hk).symm
  have hlen : (truncate (publishedLen data k) : U64).val = publishedLen data k :=
    Nat.mod_eq_of_lt (publishedLen_lt hpos hdata)
  have hone : 0 < publishedLen data k := lt_of_lt_of_le one_pos (le_max_right _ _)
  { data, sources, tags
    gen := ⟨truncate k, truncate (publishedLen data k), truncate data.length, tags.encode⟩
    length_sources := hsources
    check := by
      rw [hlen]
      exact (checkSources_splitSources data hpos).mpr hone
    flatten := by
      rw [show (truncate data.length : U64).val = data.length from Nat.mod_eq_of_lt hdata]
      exact flatten_splitSources data k hone
    decode_vtags := by
      refine decode_encode ?_ fun tag htag => ?_
      · rw [length_map, length_drawSeeds]
        decide
      · obtain ⟨seed, -, rfl⟩ := mem_map.mp htag
        rw [tagOf, length_map, hsources]
        exact (truncate k : Word 32).isLt.trans (by norm_num)
    verify := fun piece hfits => by
      have hverify : VTags.verify D ⟨schemeNullSpaceV1, truncate k, truncate (publishedLen data k),
          (drawSeeds VTags.L rng).1.map
            (tagOf D sources (truncate (publishedLen data k) : U64).val)⟩ piece = true :=
        hfits.verify hsources fun s hs => (length_of_mem_splitSources hs).trans hlen.symm
      rwa [hlen] at hverify }

/-- The tags are those that are generated for its sources. -/
theorem Content.generate_published {D : Derivation} {data : Bytes} {k : ℕ} {rng : Rng}
    (hd : data.length < 2 ^ 64) (hpos : 0 < k) (hk : k < 2 ^ 32) :
    (generate D (published D data k rng hd hpos hk).sources rng).1
      = .ok (published D data k rng hd hpos hk).tags := by
  have hone : 0 < publishedLen data k := lt_of_lt_of_le one_pos (le_max_right _ _)
  have hc : checkSources (splitSources data k (publishedLen data k)) = .ok (publishedLen data k) :=
    (checkSources_splitSources data hpos).mpr hone
  have hlen := length_splitSources (le_mul_publishedLen data hpos)
  simp only [published, generate, hc, hlen]

/-- **A published content comes back**: its tags are the generated ones, every piece made of it
passes the tags it is announced with, a decoder of the announced shape takes the pieces, and if it
is complete it gives the content. -/
theorem published_round_trip (D : Derivation) (data : Bytes) (k : ℕ) (rng : Rng)
    (hd : data.length < 2 ^ 64) (hpos : 0 < k) (hk : k < 2 ^ 32) (pieces : List CodedPiece) :
    let c := Content.published D data k rng hd hpos hk
    (∀ p ∈ pieces, Produced c.sources p) →
      (generate D (splitSources data k (publishedLen data k)) rng).1 = .ok c.tags
      ∧ (∃ tags, VTags.decode c.gen.vtags = some tags ∧ ∀ p ∈ pieces, tags.verify D p = true)
      ∧ ∃ d : Decoder c.gen.k.val c.gen.pieceLen.val, addPieces pieces = .ok d
      ∧ (d.isComplete = true →
        ∃ sources, d.decode = .ok sources ∧ sources.flatten.take c.gen.totalLen.val = data) := by
  intro c hp
  obtain ⟨d, hadd, hred, hagree, -⟩ := addPieces_spec c.length_sources c.length_source hp
  refine ⟨Content.generate_published hd hpos hk, ⟨c.tags, c.decode_vtags, fun p hpp => ?_⟩, d, hadd,
    fun hc => ?_⟩
  · exact c.verify p ((hp p hpp).fits c.length_sources c.length_source)
  · exact ⟨c.sources, decode_eq hred hagree c.length_sources c.length_source hc, c.flatten⟩

/-- The bytes `7` and `5` as two sources. -/
def twoSources : Content .repeated :=
  .published .repeated [7, 5] 2 (.const 3) (by decide) Nat.two_pos (by decide)

theorem published_round_trip_twoSources :
    ∃ d : Decoder 2 1, addPieces twoSources.units = .ok d ∧ (d.isComplete = true →
      ∃ sources, d.decode = .ok sources ∧ sources.flatten.take 2 = [7, 5]) :=
  (published_round_trip .repeated [7, 5] 2 (.const 3) (by decide) two_pos
    (by decide) twoSources.units
    fun _ h => Content.produced_of_mem_units h).2.2

/-- A provider that never answers before the honest one, and one after it that pollutes from the
second round on. -/
def lateLiar : List Others :=
  ⟨[none], [none]⟩ :: List.replicate 63 ⟨[none], [some (twoSources.respond ⟨[1, 1], [8]⟩)]⟩

/-- The second piece of the honest provider makes the fetch complete: what comes after it is not
looked at. -/
theorem get_among_harmless_late : ∃ pieces : List CodedPiece,
    get .repeated ⟨⟨none, none, []⟩, const U64 true, [1] ++ 2 :: [3],
      twoSources.answers lateLiar pieces⟩ (blake3 [7, 5]) = .ok [7, 5] := by
  have hheld : (⟨none, none, []⟩ : Holding).pieces = [] := rfl
  have hgate : const U64 true 0 = true := rfl
  have hproviders : ([1] ++ 2 :: [3] : List B32).length ≤ 16 := by decide
  have hmet :
      (Fetch.exchanges twoSources ([1] ++ 2 :: [3]) lateLiar .new).flatMap Fetch.Exchange.met
      = twoSources.units := by decide +kernel
  have hids : (twoSources.units.map CodedPiece.pieceId).Nodup := by decide +kernel
  obtain ⟨-, hget, -⟩ := get_among_harmless (c := twoSources) (by decide) rfl hheld hgate hproviders
    (show lateLiar.length = 64 from rfl) (by decide) (by decide)
    (fun x hx p hp => Content.fits_of_mem_units (hmet ▸ mem_flatMap.mpr ⟨x, hx, hp⟩))
    (by
      rw [hmet]
      intro p hp q hq
      exact inj_on_of_nodup_map hids (by simpa using hp) (by simpa using hq))
  exact ⟨_, hget []⟩

/-- The byte `7` as one source. -/
def oneSource : Content .repeated :=
  .published .repeated [7] 1 (.const 3) (by decide) Nat.one_pos (by decide)

/-- A provider before the honest one that sends the content's own tags with a piece that is none of
the content's: the fetch ends with an error, whatever the honest one sends. -/
theorem polluted_piece_ends_fetch : ¬ ∃ pieces : List CodedPiece,
    get .repeated ⟨⟨none, none, []⟩, const U64 true, [1] ++ [2],
      oneSource.answers (List.replicate 64 ⟨[some (oneSource.respond ⟨[1], [8]⟩)], []⟩) pieces⟩
        (blake3 [7]) = .ok [7] := by
  rintro ⟨pieces, h⟩
  have hbad : VTags.verify .repeated oneSource.tags ⟨[1], [8]⟩ = false := by decide +kernel
  cases pieces with
  | nil => cases h
  | cons piece pieces =>
    have hwork :
        Fetch.workOff .repeated (Fetch.round ([1] ++ [2]) ([some (oneSource.respond ⟨[1], [8]⟩)]
        ++ [some (oneSource.respond piece)])) { Fetch.new with progressed :=
          false } = .error .polluted :=
      Fetch.workOff_polluted rfl hbad _ _
    rw [replicate_succ, Content.answers_cons] at h
    change (Fetch.rounds .repeated ([1] ++ [2]) (([_] ++ [_]) :: _) .new >>= fun f => f.finish _)
      = _ at h
    rw [Fetch.rounds, if_neg (show ¬ Fetch.new.isComplete = true from Bool.false_ne_true),
      hwork] at h
    cases h

end Zephcraft.Obj
