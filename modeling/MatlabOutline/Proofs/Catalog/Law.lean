import MatlabOutline.Proofs.Catalog.Order

/-!
Laws of catalogs: what holds of every result that a catalog keeps. A law may refer to the entities
that were numbered so far, and it holds of a result for good once it holds.
-/

namespace MatlabOutline

namespace Item

/-- The item is the one that its serial number was given to. -/
def RecordedIn (ids : List Entity) (item : Item) : Prop :=
  ids[item.serial]? = some item.entity

theorem RecordedIn.mono {ids more : List Entity} {item : Item} (recorded : item.RecordedIn ids)
    (grown : ids <+: more) : item.RecordedIn more := by
  obtain ⟨rest, rfl⟩ := grown
  rw [RecordedIn, List.getElem?_append_left (List.getElem?_eq_some_iff.mp recorded).1]
  exact recorded

end Item

/-- What is required of entities, and of results where `ids` are the entities that were numbered so
far. -/
structure Law where
  entity : Entity → Prop
  holds (ids : List Entity) : Result → Prop
  mono {ids more : List Entity} {result : Result} : ids <+: more → holds ids result → holds more result

namespace Law

open Catalog

variable {α β : Type} {law : Law} {ids : List Entity} {c : Catalog}

/-- All that was numbered, and every result in the catalog, obeys the law. -/
structure Kept (law : Law) (ids : List Entity) (c : Catalog) : Prop where
  numbered : ids.length = c.next
  entities : ∀ e ∈ ids, law.entity e
  results : ∀ result, c.Holds result → law.holds ids result

theorem kept_empty (law : Law) : law.Kept [] {} where
  numbered := rfl
  entities e member := by cases member
  results result held := by cases result <;> cases held

/-- From every catalog that keeps the law and has numbered `ids`, `act` comes to one that keeps it
again, with a value of which `post` holds. -/
def Yields (law : Law) (ids : List Entity) (act : CatalogM α) (post : List Entity → α → Prop) : Prop :=
  ∀ more c, ids <+: more → law.Kept more c →
    ∃ all, more <+: all ∧ law.Kept all (act.run c).2 ∧ post all (act.run c).1

variable {act : CatalogM α} {f : α → CatalogM β} {post : List Entity → α → Prop}
  {last : List Entity → β → Prop}

theorem yields_pure {a : α} (holds : ∀ more, ids <+: more → post more a) :
    law.Yields ids (pure a) post :=
  fun more _ grown kept => ⟨more, List.prefix_rfl, kept, holds more grown⟩

theorem Yields.bind (first : law.Yields ids act post)
    (second : ∀ more a, ids <+: more → post more a → law.Yields more (f a) last) :
    law.Yields ids (act >>= f) last := by
  intro more c grown kept
  obtain ⟨more', grown', kept', holds⟩ := first more c grown kept
  obtain ⟨all, grown'', kept'', holds'⟩ :=
    second more' _ (grown.trans grown') holds more' _ List.prefix_rfl kept'
  exact ⟨all, grown'.trans grown'', kept'', holds'⟩

theorem Yields.map (first : law.Yields ids act post) {g : α → β}
    (holds : ∀ more a, ids <+: more → post more a → last more (g a)) :
    law.Yields ids (do return g (← act)) last := by
  intro more c grown kept
  obtain ⟨all, grown', kept', holds'⟩ := first more c grown kept
  exact ⟨all, grown', kept', holds all _ (grown.trans grown') holds'⟩

theorem Yields.weaken (first : law.Yields ids act post) {post' : List Entity → α → Prop}
    (holds : ∀ more a, ids <+: more → post more a → post' more a) : law.Yields ids act post' :=
  first.map holds

theorem Kept.remark (kept : law.Kept ids c) (begun : List Key) (diagnostics : List Diagnostic)
    (log : List LogRecord) : law.Kept ids { c with begun, diagnostics, log } where
  numbered := kept.numbered
  entities := kept.entities
  results result held :=
    kept.results result ((holds_remark c begun c.next diagnostics log result).mp held)

theorem yields_of_remarks {ds : List Diagnostic} (remarks : Remarks act ds) :
    law.Yields ids act fun _ _ => True := by
  intro more c grown kept
  obtain ⟨log, run⟩ := remarks c
  exact ⟨more, List.prefix_rfl, run ▸ kept.remark c.begun _ log, trivial⟩

theorem yields_get {f : Catalog → CatalogM β} (next : ∀ c, law.Yields ids (f c) last) :
    law.Yields ids (get >>= f) last :=
  fun more c => next c more c

theorem Kept.entities_append (kept : law.Kept ids c) {e : Entity} (fit : law.entity e) :
    ∀ x ∈ ids ++ [e], law.entity x := by
  simpa [or_imp, forall_and] using ⟨kept.entities, fit⟩

theorem Kept.number (kept : law.Kept ids c) {e : Entity} (fit : law.entity e)
    (diagnostics : List Diagnostic) (log : List LogRecord) :
    law.Kept (ids ++ [e]) { c with next := c.next + 1, diagnostics, log } where
  numbered := by simp [kept.numbered]
  entities := kept.entities_append fit
  results result held := law.mono (List.prefix_append ids [e])
    (kept.results result ((holds_remark c c.begun _ diagnostics log result).mp held))

theorem Kept.recordedIn_next (kept : law.Kept ids c) (e : Entity) :
    (Item.mk c.next e).RecordedIn (ids ++ [e]) := by
  simp [Item.RecordedIn, ← kept.numbered]

theorem yields_number {e : Entity} (fit : law.entity e) :
    law.Yields ids (number e) fun all item => item.RecordedIn all ∧ item.entity = e :=
  fun more c _ kept => ⟨more ++ [e], List.prefix_append _ _, kept.number fit c.diagnostics c.log,
    kept.recordedIn_next e, rfl⟩

/-- A file that is loaded alone gives its entity a number. -/
theorem yields_of_loadsAlone {load : CatalogM Lookup} {e : Option Entity} {ds : List Diagnostic}
    (alone : LoadsAlone load e ds) (fit : ∀ x ∈ e, law.entity x) : law.Yields ids load fun all r =>
      (∀ item ∈ r.item?, item.RecordedIn all) ∧ r.item?.map Item.entity = e := by
  intro more c _ kept
  obtain ⟨r, log, item, run⟩ := alone c
  rw [run]
  cases e with
  | none => exact ⟨more, List.prefix_rfl, kept.remark c.begun _ log, by simp [item]⟩
  | some e =>
    refine ⟨more ++ [e], List.prefix_append _ _, kept.number (fit e rfl) _ log, ?_⟩
    simpa [item] using kept.recordedIn_next e

/-- A copy obeys the law if the superclasses of its origin are right for it too. -/
theorem yields_numberCopy {made : ClassDoc} {origin : Item} (fit : law.entity (.cls made))
    (same : ∀ more l, ids <+: more → law.holds more (.bases origin.serial l) →
      law.holds (more ++ [.cls made]) (.bases more.length l)) :
    law.Yields ids (numberCopy made origin) fun all item =>
      item.RecordedIn all ∧ item.entity = .cls made := by
  intro more c grown kept
  refine ⟨more ++ [.cls made], List.prefix_append _ _,
    ⟨?_, kept.entities_append fit, fun result held => ?_⟩, ?_⟩
  · rw [run_numberCopy]
    simp [kept.numbered]
  · rcases (holds_numberCopy made origin c result).mp held with ⟨l, above, rfl⟩ | ⟨-, before⟩
    · rw [← kept.numbered]
      exact same more l grown (kept.results _ above)
    · exact law.mono (List.prefix_append _ _) (kept.results result before)
  · rw [run_numberCopy]
    exact ⟨kept.recordedIn_next _, rfl⟩

/-- A lookup gives a result that obeys the law, if its loader does. -/
theorem yields_once {key : Key} {result : α → Result} {known : Catalog → Option α}
    {keep : α → Catalog → Catalog} {load : CatalogM α} (slot : Slot key result known keep)
    (inner : law.Yields ids load fun all a => law.holds all (result a)) :
    law.Yields ids (once key known keep load) fun all a => law.holds all (result a) := by
  intro more c grown kept
  rcases found : known c with _ | a
  · rw [run_once_of_unknown key known keep load found]
    obtain ⟨all, grown', kept', holds⟩ :=
      inner more _ grown (kept.remark (key :: c.begun) c.diagnostics c.log)
    refine ⟨all, grown', ⟨?_, kept'.entities, fun other held => ?_⟩, holds⟩
    · rw [slot.next]
      exact kept'.numbered
    · rcases (slot.holds_keep _ _ other).mp held with rfl | ⟨-, before⟩
      · exact holds
      · exact kept'.results other before
  · rw [once_of_known key known keep load c a found]
    exact ⟨more, List.prefix_rfl, kept, kept.results _ ((slot.held c a).mp found)⟩

end Law

end MatlabOutline
