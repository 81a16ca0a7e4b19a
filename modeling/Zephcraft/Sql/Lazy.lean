import Zephcraft.Foundations.Run
import Zephcraft.Sql.Snapshot

/-!
# Sql/Lazy — a reader that fetches pages as it needs them

A reader of another node's database copies the index first, object by object, each one checked
against its content id. The pages it fetches when they are read.
-/

namespace Zephcraft.Sql

open List Option Run

/-- How a fetch fails. -/
inductive SourceError where
  | ownerNotLive
  | transport
deriving DecidableEq

/-- What a source answers to one request: bytes, or that it has none, or an error. -/
abbrev Reply := Except SourceError (Option Bytes)

/-- What the fetcher hands on: of an error, nothing. -/
def fetched (reply : Reply) : Option Bytes := reply.toOption.join

/-- The local store, and the replies to the requests to come. -/
structure Link where
  store : ObjectStore
  replies : Stream' Reply

/-! ## The index is copied -/

/-- How reading fails. -/
inductive SyncError where
  | source (e : SourceError)
  | missingObject (cid : B32)
  | hashMismatch (cid : B32)
  | sql (e : SqlError)

/-- A computation that asks the source; what it has stored stays stored if it fails. -/
abbrev Sync := ExceptT SyncError (StateM Link)

theorem Sync.run_bind {α β : Type} (x : Sync α) (f : α → Sync β) (link : Link) :
    (x >>= f).run link = match x.run link with
      | (.ok a, link₁) => (f a).run link₁
      | (.error e, link₁) => (.error e, link₁) := by
  unfold ExceptT.run
  simp only [bind, ExceptT.bind, ExceptT.mk, StateT.bind]
  rcases x link with ⟨_ | _, _⟩ <;> rfl

theorem Sync.bind_eq_ok {α β : Type} {x : Sync α} {f : α → Sync β} {b : β} {link link' : Link} :
    (x >>= f).run link = (.ok b, link')
      ↔ ∃ a link₁, x.run link = (.ok a, link₁) ∧ (f a).run link₁ = (.ok b, link') := by
  rw [Sync.run_bind]
  generalize x.run link = result
  constructor
  · rcases result with ⟨e | a, link₁⟩
    · intro h
      cases congrArg Prod.fst h
    · exact fun h => ⟨a, link₁, rfl, h⟩
  · rintro ⟨a, link₁, rfl, h⟩
    exact h

/-- A computation only adds to the store. -/
def Sync.Grows {α : Type} (x : Sync α) : Prop :=
  ∀ link, link.store.objects ⊆ (x.run link).2.store.objects

namespace Sync.Grows

variable {α β : Type}

theorem pure (a : α) : Sync.Grows (Pure.pure a) := fun _ => List.Subset.refl _

theorem bind {x : Sync α} {f : α → Sync β} (hx : Sync.Grows x) (hf : ∀ a, Sync.Grows (f a)) :
    Sync.Grows (x >>= f) := by
  intro link
  have hl := hx link
  rw [Sync.run_bind]
  generalize x.run link = result at hl ⊢
  rcases result with ⟨e | a, link₁⟩
  · exact hl
  · exact List.Subset.trans hl (hf a link₁)

theorem foldlM {f : β → α → Sync β} (hf : ∀ b a, Sync.Grows (f b a)) (l : List α) (b : β) :
    Sync.Grows (l.foldlM f b) := by
  induction l generalizing b with
  | nil => exact pure b
  | cons a l ih =>
    rw [foldlM_cons]
    exact (hf b a).bind ih

theorem forIn {f : α → PUnit → Sync (ForInStep PUnit)} (hf : ∀ a u, Sync.Grows (f a u))
    (l : List α) :
    Sync.Grows (ForIn.forIn l PUnit.unit f) := by
  induction l with
  | nil => exact pure _
  | cons a l ih =>
    rw [forIn_cons]
    refine (hf a _).bind fun step => ?_
    cases step with
    | done u => exact pure u
    | yield u => exact ih

end Sync.Grows

section Operations

variable (M : Medium)

/-- The object of a content id: from the store, or else from the source, checked. -/
def ensure (cid : B32) : Sync Bytes := do
  let link ← get
  match link.store.get M cid with
  | some data => pure data
  | none =>
    set { link with replies := link.replies.tail }
    match link.replies.head with
    | .error e => throw (.source e)
    | .ok none => throw (.missingObject cid)
    | .ok (some data) =>
      set (⟨(link.store.put M data).2, link.replies.tail⟩ : Link)
      if (link.store.put M data).1 ≠ cid then throw (.hashMismatch cid) else pure data

def decodeNodeSealed (stored : Bytes) : Except SqlError NodeMap :=
  match M.openIndex stored with
  | none => .error (.corruptIndex .indexDecrypt)
  | some plain => decodeNode plain

/-- What an index object decodes to, or its error. -/
def decoded {α : Type} (result : Except SqlError α) : Sync α :=
  match result with
  | .ok a => pure a
  | .error e => throw (.sql e)

theorem decoded_eq_ok {α : Type} {result : Except SqlError α} {a : α} {link link' : Link}
    (h : (decoded result).run link = (.ok a, link')) : result = .ok a := by
  cases result with
  | ok a' => exact congrArg _ (Except.ok.inj (congrArg Prod.fst h))
  | error e => cases congrArg Prod.fst h

/-- Copy a node of the frontier, and where pages are wanted, those below it; the nodes below it are
next. -/
def syncNode (fetchPages : Bool) (next : List (ℕ × B32)) (entry : ℕ × B32) :
    Sync (List (ℕ × B32)) := do
  let stored ← ensure M entry.2
  let node ← decoded (decodeNodeSealed M stored)
  match entry.1 with
  | 0 =>
    if fetchPages then
      for child in node.toList do
        let _ ← ensure M child.2
    pure next
  | level + 1 => pure (next ++ node.toList.map fun e => (level, e.2))

/-- The loop of `sync_reachable`, one level in each round. -/
def syncLoop (fetchPages : Bool) : ℕ → List (ℕ × B32) → Sync Unit
  | 0, _ => pure ()
  | fuel + 1, frontier =>
    if frontier = [] then pure ()
    else do
      let next ← frontier.foldlM (syncNode M fetchPages) []
      syncLoop fetchPages fuel next

/-- Copy the header and the nodes below a root, and the pages where they are wanted. -/
def syncReachable (root : B32) (fetchPages : Bool) : Sync Unit := do
  let stored ← ensure M root
  let ri ← decoded (decodeRoot stored)
  if ri.depth = 0 then pure ()
  else syncLoop M fetchPages (ri.depth + 1) [(ri.depth - 1, ri.rootCid)]

end Operations

section Growth

variable {M : Medium}

theorem grows_ensure (cid : B32) : (ensure M cid).Grows := by
  intro link
  have hget : (get : Sync Link).run link = (.ok link, link) := rfl
  rw [ensure, Sync.run_bind, hget]
  dsimp only
  split
  · exact List.Subset.refl _
  · have hset : (set { link with replies := link.replies.tail } : Sync PUnit).run link
        = (.ok ⟨⟩, { link with replies := link.replies.tail }) := rfl
    rw [Sync.run_bind, hset]
    dsimp only
    split
    · exact List.Subset.refl _
    · exact List.Subset.refl _
    · -- the reply is stored before its hash is compared
      rename_i data _
      have hput : (set (⟨(link.store.put M data).2, link.replies.tail⟩ : Link) : Sync PUnit).run
          { link with replies := link.replies.tail }
            = (.ok ⟨⟩, ⟨(link.store.put M data).2, link.replies.tail⟩) := rfl
      rw [Sync.run_bind, hput]
      dsimp only
      split
      · exact subset_append_left _ _
      · exact subset_append_left _ _

theorem grows_decoded {α : Type} (result : Except SqlError α) : (decoded result).Grows := by
  cases result with
  | ok a => exact .pure a
  | error e => exact fun _ => List.Subset.refl _

theorem grows_syncNode (fetchPages : Bool) (next : List (ℕ × B32)) (entry : ℕ × B32) :
    (syncNode M fetchPages next entry).Grows := by
  refine (grows_ensure _).bind fun stored => (grows_decoded _).bind fun node => ?_
  rcases entry with ⟨_ | level, cid⟩
  · cases fetchPages with
    | false => exact .pure _
    | true =>
      exact (Sync.Grows.forIn (fun child _ => (grows_ensure _).bind fun _ => .pure _) _).bind
        fun _ => .pure _
  · exact .pure _

theorem grows_syncLoop (fetchPages : Bool) (fuel : ℕ) (frontier : List (ℕ × B32)) :
    (syncLoop M fetchPages fuel frontier).Grows := by
  induction fuel generalizing frontier with
  | zero => exact .pure _
  | succ fuel ih =>
    rw [syncLoop]
    split
    · exact .pure _
    · exact (Sync.Grows.foldlM (grows_syncNode fetchPages) _ _).bind ih

theorem grows_syncReachable (root : B32) (fetchPages : Bool) :
    (syncReachable M root fetchPages).Grows := by
  refine (grows_ensure _).bind fun stored => (grows_decoded _).bind fun ri => ?_
  split
  · exact .pure _
  · exact grows_syncLoop _ _ _

end Growth

/-! ## Pages are fetched -/

/-- A reader of another's pages. -/
structure LazyReader where
  pager : Pager
  replies : Stream' Reply

/-- Open another node's database at a root. -/
def openReader (M : Medium) (root : B32) : Sync LazyReader := do
  syncReachable M root false
  let link ← get
  let pager ← decoded (Pager.openRoot M link.store root)
  pure ⟨pager, link.replies⟩

namespace LazyReader

section Operations

variable (M : Medium) (r : LazyReader)

/-- `Pager::object`: from the store, or else from the fetcher, and then stored under what it hashes
to. -/
def object (cid : B32) : Option Bytes × LazyReader :=
  match r.pager.store.get M cid with
  | some data => (some data, r)
  | none =>
    match fetched r.replies.head with
    | none => (none, { r with replies := r.replies.tail })
    | some data =>
      (some data, ⟨{ r.pager with store := (r.pager.store.put M data).2 }, r.replies.tail⟩)

/-- `Pager::read_page`: what does not open is read as it is, and what is not there as zeros. -/
def readPage (n : ℕ) : Bytes × LazyReader :=
  match r.pager.dirty[n]? with
  | some data => (pad data, r)
  | none =>
    match r.pager.pages[n]? with
    | none => (List.replicate pageSize 0, r)
    | some cid =>
      match r.object M cid with
      | (some data, r) => (pad ((M.openIndex data).getD data), r)
      | (none, r) => (List.replicate pageSize 0, r)

def next (n : ℕ) : LazyReader := (r.readPage M n).2

/-- **An authentic read**: it presents an object of the page's content id, opened. -/
def Authentic (n : ℕ) : Prop :=
  ∀ cid, r.pager.pages[n]? = some cid → ∃ data plain, (r.object M cid).1 = some data
    ∧ M.hash data = cid ∧ M.openIndex data = some plain ∧ (r.readPage M n).1 = pad plain

/-- **A page is backed**: it is in the store, or the source is about to send bytes of its content
id; and the key opens it. -/
def Backed (n : ℕ) : Prop :=
  ∀ cid, r.pager.pages[n]? = some cid → ∃ data, (M.openIndex data).isSome
    ∧ (r.pager.store.get M cid = some data
      ∨ r.pager.store.get M cid = none ∧ r.replies.head = .ok (some data) ∧ M.hash data = cid)

end Operations

variable {M : Medium} {r : LazyReader} {n : ℕ} {cid : B32} {data : Bytes}

theorem fetched_eq_some {reply : Reply} : fetched reply = some data ↔ reply = .ok (some data) := by
  rcases reply with e | _ | d <;> simp [fetched, Except.toOption]

theorem object_eq_some : (r.object M cid).1 = some data ↔ r.pager.store.get M cid = some data
    ∨ r.pager.store.get M cid = none ∧ r.replies.head = .ok (some data) := by
  rw [object]
  cases hget : r.pager.store.get M cid with
  | some found => simp
  | none =>
    rw [← fetched_eq_some]
    cases fetched r.replies.head <;> simp

theorem readPage_eq (hd : r.pager.dirty[n]? = none) (hcid : r.pager.pages[n]? = some cid) :
    (r.readPage M n).1 = ((r.object M cid).1.map fun data =>
      pad ((M.openIndex data).getD data)).getD (List.replicate pageSize 0) := by
  rw [readPage, hd, hcid]
  dsimp only
  split <;> next heq => rw [heq]; rfl

theorem authentic_iff (hd : r.pager.dirty = ∅) : r.Authentic M n ↔ r.Backed M n := by
  refine forall₂_congr fun cid hcid => ⟨?_, ?_⟩
  · rintro ⟨data, plain, ho, hh, hop, -⟩
    refine ⟨data, by simp [hop], ?_⟩
    rcases object_eq_some.mp ho with hget | ⟨hget, hr⟩
    · exact .inl hget
    · exact .inr ⟨hget, hr, hh⟩
  · rintro ⟨data, hs, hb⟩
    obtain ⟨plain, hop⟩ := isSome_iff_exists.mp hs
    have hh : M.hash data = cid := by
      rcases hb with hget | ⟨-, -, hh⟩
      · exact ObjectStore.hash_of_get hget
      · exact hh
    have ho : (r.object M cid).1 = some data :=
      object_eq_some.mpr (hb.imp_right fun h => ⟨h.1, h.2.1⟩)
    refine ⟨data, plain, ho, hh, hop, ?_⟩
    rw [readPage_eq (by simp [hd]) hcid, ho, map_some, getD_some, hop, getD_some]

theorem dirty_next (r : LazyReader) (n : ℕ) : (r.next M n).pager.dirty = r.pager.dirty := by
  have ho : ∀ cid, (r.object M cid).2.pager.dirty = r.pager.dirty := fun cid => by
    rw [object]
    split
    · rfl
    · split <;> rfl
  rw [next, readPage]
  split
  · rfl
  · split
    · rfl
    · next cid _ =>
      have h := ho cid
      split <;> next heq => rw [heq] at h; exact h

theorem dirty_openReader {root : B32} {link link' : Link}
    (ho : (openReader M root).run link = (.ok r, link')) : r.pager.dirty = ∅ := by
  obtain ⟨_, _, -, ho⟩ := Sync.bind_eq_ok.mp ho
  obtain ⟨_, _, -, ho⟩ := Sync.bind_eq_ok.mp ho
  obtain ⟨pager, _, hp, ho⟩ := Sync.bind_eq_ok.mp ho
  obtain ⟨ri, loaded, -, -, rfl⟩ := Pager.openRoot_eq_ok (decoded_eq_ok hp)
  obtain ⟨hr, -⟩ := Prod.mk.inj ho
  rw [← Except.ok.inj hr]
  rfl

/-- **The reads of a lazily opened database are authentic exactly when every page is backed as it is
read**, whatever is in the store and whatever the source answers. -/
theorem lazy_reads_authentic_iff (M : Medium) (root : B32) (link link' : Link) (r : LazyReader)
    (hopen : (openReader M root).run link = (.ok r, link')) (pages : List ℕ) :
    EachStep (next M) r (Authentic M) pages ↔ EachStep (next M) r (Backed M) pages := by
  have hdirty : ∀ pre, (run (next M) r pre).pager.dirty = ∅ := fun pre =>
    always (I := fun r : LazyReader => r.pager.dirty = ∅) (dirty_openReader hopen)
      fun r n h => (dirty_next r n).trans h
  exact forall₃_congr fun pre n _ => authentic_iff (hdirty pre)

/-! ## A page that was tampered with -/

/-- A file of one page, and what its commit stores: the page, the node above it, the header. -/
def onePage : Pager := { Pager.create ⟨[]⟩ with
  dirty := (∅ : BTreeMap ℕ Bytes).insert 0 [7], dirtyIndex :=
    (∅ : BTreeSet ℕ).insert 0, pageCount := 1 }

/-- A reader of the committed page. -/
abbrev onePageReader := openReader publicMedium (onePage.commit publicMedium).1

/-- The owner sends the header and the node, and then `page`. -/
def served (page : Reply) : Link :=
  ⟨⟨[]⟩, .cons (.ok ((onePage.commit publicMedium).2.store.objects[2]?))
    (.cons (.ok ((onePage.commit publicMedium).2.store.objects[1]?)) (.const page))⟩

/-- The page is indexed and not in the store, and the next reply is the one for it. -/
def Awaits (page : Reply) (r : LazyReader) : Prop :=
  r.pager.pages[0]? = some (blake3 [7]) ∧ r.pager.store.get publicMedium (blake3 [7]) = none
    ∧ r.replies.head = page

theorem exists_awaits (page : Reply) (h : (onePageReader.run (served page)).1.toOption.map (fun r =>
      (r.pager.pages[0]?, r.pager.store.get publicMedium (blake3 [7]),
      r.replies.head)) = some (some (blake3 [7]), none, page)) :
    ∃ r link', onePageReader.run (served page) = (.ok r, link') ∧ r.Awaits page := by
  obtain ⟨r, hr, hp⟩ := map_eq_some_iff.mp h
  generalize onePageReader.run (served page) = result at hr ⊢
  rcases result with ⟨e | r', link'⟩
  · cases hr
  · obtain rfl := Option.some.inj hr
    simp only [Prod.mk.injEq] at hp
    exact ⟨r', link', rfl, hp⟩

/-- A reader that gets the page the owner committed. -/
theorem lazy_reads_authentic_iff_honest : ∃ r link',
    onePageReader.run (served (.ok (some [7]))) = (.ok r, link')
      ∧ EachStep (next publicMedium) r (Authentic publicMedium) [0] := by
  obtain ⟨r, link', hopen, hcid, hget, hreply⟩ := exists_awaits (.ok (some [7])) (by decide +kernel)
  refine ⟨r, link', hopen, (lazy_reads_authentic_iff _ _ _ _ _ hopen [0]).mpr
    (eachStep_cons.mpr ⟨fun cid hcid' => ?_, eachStep_nil⟩)⟩
  obtain rfl := Option.some.inj (hcid.symm.trans hcid')
  exact ⟨[7], rfl, .inr ⟨hget, hreply, rfl⟩⟩

theorem Awaits.hash_of_authentic {page : Reply} (h : r.Awaits page)
    (ha : r.Authentic publicMedium 0) :
    ∃ data, page = .ok (some data) ∧ blake3 data = blake3 [7] := by
  obtain ⟨hcid, hget, rfl⟩ := h
  obtain ⟨data, -, ho, hh, -, -⟩ := ha _ hcid
  rcases object_eq_some.mp ho with hget' | ⟨-, hr⟩
  · simp [hget] at hget'
  · exact ⟨data, hr, hh⟩

/-- **What the owner sends is shown, and where it sends nothing, zeros.** -/
theorem unverified_page_shown :
    (∃ r link', onePageReader.run (served (.ok (some [9])))
        = (.ok r, link') ∧ (r.readPage publicMedium 0).1 = pad [9] ∧ ¬ r.Authentic publicMedium 0)
      ∧ ∃ r link', onePageReader.run (served (.error .transport))
        = (.ok r, link') ∧ (r.readPage publicMedium 0).1 = List.replicate pageSize 0
          ∧ ¬ r.Authentic publicMedium 0 := by
  constructor
  · obtain ⟨r, link', hopen, hawaits⟩ := exists_awaits (.ok (some [9])) (by decide +kernel)
    refine ⟨r, link', hopen, ?_, fun ha => ?_⟩
    · obtain ⟨hcid, hget, hreply⟩ := hawaits
      rw [readPage_eq (by simp [dirty_openReader hopen]) hcid, object, hget, hreply]
      rfl
    · obtain ⟨data, hpage, hhash⟩ := hawaits.hash_of_authentic ha
      cases hpage
      exact absurd hhash (by decide +kernel)
  · obtain ⟨r, link', hopen, hawaits⟩ := exists_awaits (.error .transport) (by decide +kernel)
    refine ⟨r, link', hopen, ?_, fun ha => ?_⟩
    · obtain ⟨hcid, hget, hreply⟩ := hawaits
      rw [readPage_eq (by simp [dirty_openReader hopen]) hcid, object, hget, hreply]
      rfl
    · obtain ⟨data, hpage, -⟩ := hawaits.hash_of_authentic ha
      cases hpage

end LazyReader

end Zephcraft.Sql
