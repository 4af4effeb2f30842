import Khorost.Db.KhlPostgres

namespace Khorost.Translations

open Internalization KhlPostgres

/-- What happens to the translations. Nothing but `load_tag` puts a value in. -/
inductive Event
  | getDictionary (lang : List UInt8)
  | appendDictionary (lang : List UInt8)
  | getLoaded (p : Nat) (tag : List UInt8)
  | getValue (lang tag : List UInt8)
  | clear
  | clearDictionary (p : Nat)
  | database (db : Database)

/-- The translations, the database with those that were there before it, and for each
dictionary how many of these were gone when it was made or cleared. -/
structure Life where
  past : List Database
  db : Database
  state : Internalization
  since : List Nat

namespace Life

def start (db : Database) : Life := ⟨[], db, .empty, []⟩

/-- Dictionaries that have been made are of today. -/
def moved (l : Life) (state : Internalization) : Life :=
  { l with
    state := state
    since := l.since ++ List.replicate (state.made.length - l.since.length) l.past.length }

def step (l : Life) : Event → Life
  | .getDictionary lang => l.moved (l.state.getDictionary lang).2
  | .appendDictionary lang => l.moved (l.state.appendDictionary lang).2
  | .getLoaded p tag =>
    (l.state.getLoaded (loadTag l.db) p tag).elim l fun found => l.moved found.2
  | .getValue lang tag => l.moved (l.state.getValue lang tag).2
  | .clear => { l with state := l.state.clear }
  | .clearDictionary p =>
    { l with state := l.state.update p .clear, since := l.since.set p l.past.length }
  | .database db => { l with past := l.past ++ [l.db], db := db }

def run (db : Database) (events : List Event) : Life := events.foldl step (start db)

/-- One of the databases from the `i`-th on has given the value. -/
def Answered (l : Life) (i : Nat) (lang tag value : List UInt8) : Prop :=
  ∃ k db, i ≤ k ∧ (l.past ++ [l.db])[k]? = some db ∧ loadValueByTag db lang tag = some value

def lookedUp (l : Life) (p : Nat) (tag : List UInt8) : Option (List UInt8) :=
  (l.state.getLoaded (loadTag l.db) p tag).map Prod.fst

/-- Everything that the dictionaries hold has come from a database since. -/
structure Sourced (l : Life) : Prop where
  born : l.since.length = l.state.made.length
  past : ∀ i ∈ l.since, i ≤ l.past.length
  library : ∀ lang p, l.state.library.lookup lang = some p →
    ∃ d, l.state.made[p]? = some d ∧ d.lang = lang
  values : ∀ (p : Nat) (d : Dictionary) (i : Nat), l.state.made[p]? = some d → l.since[p]? = some i →
    ∀ tag value, d.map.lookup tag = some value → l.Answered i d.lang tag value

end Life

variable {l : Life} {s : Internalization} {p i : Nat} {d : Dictionary} {lang tag value : List UInt8}

theorem append_there {xs : List α} {k : Nat} (h : xs[k]? = some x) (ys : List α) :
    (xs ++ ys)[k]? = some x := by
  rw [List.getElem?_append_left (List.getElem?_eq_some_iff.mp h).1, h]

theorem get_dictionary_cases (lang : List UInt8) (s : Internalization) :
    (∃ p, s.library.lookup lang = some p ∧ s.getDictionary lang = (p, s)) ∨
      s.library.lookup lang = none ∧ s.getDictionary lang = s.appendDictionary lang := by
  unfold Internalization.getDictionary
  cases h : s.library.lookup lang with
  | none => exact .inr ⟨rfl, rfl⟩
  | some p => exact .inl ⟨p, rfl, rfl⟩

/-- A lookup finds the value, or has the database asked for it. -/
theorem get_loaded_cases (h : s.getLoaded load p tag = some (value, s')) :
    ∃ d, s.made[p]? = some d ∧
      (d.map.lookup tag = some value ∧ s' = s ∨
        d.map.lookup tag = none ∧ load d.lang tag s = some (value, s')) := by
  obtain ⟨d, hd, h⟩ := Option.bind_eq_some_iff.mp h
  refine ⟨d, hd, ?_⟩
  cases hfound : d.map.lookup tag with
  | some held =>
    simp only [hfound, Option.some.injEq, Prod.mk.injEq] at h
    obtain ⟨rfl, rfl⟩ := h
    exact .inl ⟨rfl, rfl⟩
  | none => exact .inr ⟨rfl, by simpa [hfound] using h⟩

theorem load_tag_some (h : loadTag db lang tag s = some (value, s')) :
    loadValueByTag db lang tag = some value ∧ s' = s.appendValue lang tag value := by
  obtain ⟨v, hv, h⟩ := Option.bind_eq_some_iff.mp h
  simp only [Option.some.injEq, Prod.mk.injEq] at h
  obtain ⟨rfl, rfl⟩ := h
  exact ⟨hv, rfl⟩

theorem update_made (p : Nat) (f : Dictionary → Dictionary) (s : Internalization) (q : Nat) :
    (s.update p f).made[q]? = if p = q then (s.made[q]?).map f else s.made[q]? := by
  simp only [Internalization.update, List.getElem?_modify]
  split
  · rfl
  · simp

theorem update_length (p : Nat) (f : Dictionary → Dictionary) (s : Internalization) :
    (s.update p f).made.length = s.made.length := List.length_modify ..

namespace Life

theorem moved_same (hs : l.Sourced) : l.moved l.state = l := by
  have hborn := hs.born
  simp [moved, hborn]

theorem moved_update (l : Life) (s : Internalization) (p : Nat) (f : Dictionary → Dictionary) :
    l.moved (s.update p f) = { l.moved s with state := s.update p f } := by
  simp [moved, update_length]

theorem Sourced.appended (hs : l.Sourced) (lang : List UInt8) :
    (l.moved (l.state.appendDictionary lang).2).Sourced := by
  have hborn := hs.born
  have hsince : (l.moved (l.state.appendDictionary lang).2).since = l.since ++ [l.past.length] := by
    simp [moved, Internalization.appendDictionary, hborn]
  refine ⟨?_, ?_, ?_, ?_⟩
  · rw [hsince]
    simp [moved, Internalization.appendDictionary, hborn]
  · rw [hsince]
    simpa [moved, or_imp, forall_and] using hs.past
  · intro key p hp
    simp only [moved, Internalization.appendDictionary, Table.lookup_insert_new] at hp ⊢
    split at hp
    · next hkey =>
      cases hold : l.state.library.lookup lang with
      | none =>
        simp only [hold, Option.getD_none, Option.some.injEq] at hp
        exact ⟨⟨lang, ∅⟩, by simp [← hp], hkey.symm⟩
      | some q =>
        simp only [hold, Option.getD_some, Option.some.injEq] at hp
        obtain ⟨d, hd, hlang⟩ := hs.library lang q hold
        exact ⟨d, hp ▸ append_there hd _, hlang.trans hkey.symm⟩
    · obtain ⟨d, hd, hlang⟩ := hs.library key p hp
      exact ⟨d, append_there hd _, hlang⟩
  · intro p d i hd hi tag value hvalue
    rw [hsince] at hi
    simp only [moved, Internalization.appendDictionary] at hd
    rcases Nat.lt_or_ge p l.state.made.length with hp | hp
    · rw [List.getElem?_append_left hp] at hd
      rw [List.getElem?_append_left (hborn ▸ hp)] at hi
      exact hs.values p d i hd hi tag value hvalue
    · rw [List.getElem?_append_right hp] at hd
      obtain rfl := List.mem_singleton.mp (List.mem_of_getElem? hd)
      cases hvalue

/-- The dictionary of a language is one of that language. -/
theorem Sourced.got (hs : l.Sourced) (lang : List UInt8) :
    (l.moved (l.state.getDictionary lang).2).Sourced ∧
      ∃ d, (l.state.getDictionary lang).2.made[(l.state.getDictionary lang).1]? = some d ∧
        d.lang = lang := by
  rcases get_dictionary_cases lang l.state with ⟨p, hp, hget⟩ | ⟨hnone, hget⟩
  · rw [hget, moved_same hs]
    exact ⟨hs, hs.library lang p hp⟩
  · rw [hget]
    exact ⟨hs.appended lang, ⟨lang, ∅⟩, by simp [Internalization.appendDictionary], rfl⟩

/-- A value from the present database may be put into the dictionary of its language. -/
theorem Sourced.filled (hs : l.Sourced) (hd : l.state.made[p]? = some d)
    (hvalue : loadValueByTag l.db d.lang tag = some value) :
    Sourced { l with state := l.state.update p (·.appendValue tag value) } := by
  refine ⟨hs.born.trans (update_length ..).symm, hs.past, fun lang q hq => ?_, ?_⟩
  · obtain ⟨e, he, hlang⟩ := hs.library lang q hq
    rw [update_made]
    split
    · exact ⟨e.appendValue tag value, by simp [he], hlang⟩
    · exact ⟨e, he, hlang⟩
  · intro q e i he hi tag' value' hvalue'
    rw [update_made] at he
    split at he
    · next hq =>
      subst hq
      rw [hd, Option.map_some, Option.some.injEq] at he
      subst he
      simp only [Dictionary.appendValue, Table.lookup_insert_new] at hvalue'
      split at hvalue'
      · next htag =>
        subst htag
        cases hold : d.map.lookup tag' with
        | none =>
          simp only [hold, Option.getD_none, Option.some.injEq] at hvalue'
          subst hvalue'
          refine ⟨l.past.length, l.db, hs.past i (List.mem_of_getElem? hi), ?_, hvalue⟩
          simp
        | some held =>
          simp only [hold, Option.getD_some, Option.some.injEq] at hvalue'
          exact hs.values p d i hd hi tag' value' (hvalue' ▸ hold)
      · exact hs.values p d i hd hi tag' value' hvalue'
    · exact hs.values q e i he hi tag' value' hvalue'

theorem Sourced.cleared (hs : l.Sourced) (p : Nat) :
    (l.step (.clearDictionary p)).Sourced := by
  refine ⟨?_, fun i hi => ?_, fun lang q hq => ?_, fun q e i he hi tag value hvalue => ?_⟩
  · simpa [step, update_length] using hs.born
  · rcases List.mem_or_eq_of_mem_set hi with hold | rfl
    · exact hs.past i hold
    · exact Nat.le_refl _
  · obtain ⟨e, he, hlang⟩ := hs.library lang q hq
    simp only [step, update_made]
    split
    · exact ⟨e.clear, by simp [he], hlang⟩
    · exact ⟨e, he, hlang⟩
  · simp only [step, update_made] at he
    simp only [step, List.getElem?_set] at hi
    split at he
    · obtain ⟨e', -, rfl⟩ := Option.map_eq_some_iff.mp he
      cases hvalue
    · next hq =>
      rw [if_neg hq] at hi
      exact hs.values q e i he hi tag value hvalue

/-- A later database takes nothing away from what has been answered. -/
theorem Sourced.replaced (hs : l.Sourced) (db : Database) : (l.step (.database db)).Sourced := by
  refine ⟨hs.born, fun i hi => ?_, hs.library, fun p d i hd hi tag value hvalue => ?_⟩
  · have hle := hs.past i hi
    simp only [step, List.length_append, List.length_singleton]
    omega
  · obtain ⟨k, older, hk, hdb, hload⟩ := hs.values p d i hd hi tag value hvalue
    exact ⟨k, older, hk, append_there hdb _, hload⟩

theorem Sourced.step (hs : l.Sourced) (event : Event) : (l.step event).Sourced := by
  cases event with
  | getDictionary lang => exact (hs.got lang).1
  | appendDictionary lang => exact hs.appended lang
  | getLoaded p tag =>
    cases hget : l.state.getLoaded (loadTag l.db) p tag with
    | none => simpa [Life.step, hget] using hs
    | some result =>
      obtain ⟨value, s'⟩ := result
      obtain ⟨d, hd, hcases⟩ := get_loaded_cases hget
      simp only [Life.step, hget, Option.elim_some]
      rcases hcases with ⟨-, rfl⟩ | ⟨-, hload⟩
      · exact (moved_same hs).symm ▸ hs
      · obtain ⟨hvalue, rfl⟩ := load_tag_some hload
        obtain ⟨hgot, e, he, hlang⟩ := hs.got d.lang
        have hfilled := hgot.filled he (hlang ▸ hvalue)
        rw [Internalization.appendValue, moved_update]
        exact hfilled
  | getValue lang tag => exact (hs.got lang).1
  | clear =>
    refine ⟨hs.born, hs.past, fun lang p hp => ?_, hs.values⟩
    cases hp
  | clearDictionary p => exact hs.cleared p
  | database db => exact hs.replaced db

theorem run_sourced (db : Database) (events : List Event) : (run db events).Sourced := by
  have hstart : (start db).Sourced := by
    refine ⟨rfl, by simp [start], fun lang p hp => ?_, fun p d i hd => ?_⟩
    · cases hp
    · cases hd
  have hall : ∀ l : Life, l.Sourced → (events.foldl Life.step l).Sourced := by
    induction events with
    | nil => exact fun l hs => hs
    | cons event events ih => exact fun l hs => ih _ (hs.step event)
  exact hall _ hstart

theorem Sourced.looked_up (hs : l.Sourced) (hd : l.state.made[p]? = some d)
    (hi : l.since[p]? = some i) (h : l.lookedUp p tag = some value) :
    l.Answered i d.lang tag value := by
  obtain ⟨⟨value, s'⟩, hget, rfl⟩ := Option.map_eq_some_iff.mp h
  obtain ⟨e, he, hcases⟩ := get_loaded_cases hget
  obtain rfl : e = d := Option.some.inj (he.symm.trans hd)
  rcases hcases with ⟨hfound, -⟩ | ⟨-, hload⟩
  · exact hs.values p e i hd hi tag value hfound
  · have hle := hs.past i (List.mem_of_getElem? hi)
    exact ⟨l.past.length, l.db, hle, by simp, (load_tag_some hload).1⟩

/-- What only the present database can have answered, it answers. -/
theorem Answered.now (h : l.Answered l.past.length lang tag value) :
    loadValueByTag l.db lang tag = some value := by
  obtain ⟨k, db, hk, hdb, hload⟩ := h
  rw [List.getElem?_append_right hk] at hdb
  obtain rfl := List.mem_singleton.mp (List.mem_of_getElem? hdb)
  exact hload

theorem Sourced.transparent (hs : l.Sourced) (hd : l.state.made[p]? = some d)
    (hi : l.since[p]? = some l.past.length) (tag : List UInt8) :
    l.lookedUp p tag = loadValueByTag l.db d.lang tag := by
  cases h : l.lookedUp p tag with
  | some value => exact (hs.looked_up hd hi h).now.symm
  | none =>
    cases hload : loadValueByTag l.db d.lang tag with
    | none => rfl
    | some value =>
      cases hfound : d.map.lookup tag with
      | some held => simp [lookedUp, Internalization.getLoaded, hd, hfound] at h
      | none => simp [lookedUp, Internalization.getLoaded, hd, hfound, loadTag, hload] at h

/-- A lookup in a dictionary answers what a database has given for its language since
the dictionary was made or cleared. As long as the database has not changed since, it
answers what it would without dictionaries. -/
theorem lookups_answered (db : Database) (events : List Event)
    (hd : (run db events).state.made[p]? = some d) (hi : (run db events).since[p]? = some i)
    (tag : List UInt8) :
    (∀ value, (run db events).lookedUp p tag = some value →
      (run db events).Answered i d.lang tag value) ∧
    (i = (run db events).past.length →
      (run db events).lookedUp p tag = loadValueByTag (run db events).db d.lang tag) := by
  have hs := run_sourced db events
  refine ⟨fun value h => hs.looked_up hd hi h, fun hnow => ?_⟩
  exact hs.transparent hd (hnow ▸ hi) tag

def oneText (text : String) : Database := fun _ => some [[some (ascii text)]]

theorem new_text_looked_up :
    (run (oneText "Hi") [.getDictionary (ascii "en"), .getLoaded 0 (ascii "hi"),
      .database (oneText "Hello"), .clearDictionary 0]).lookedUp 0 (ascii "hi") =
      loadValueByTag (oneText "Hello") (ascii "en") (ascii "hi") :=
  (lookups_answered (oneText "Hi") [.getDictionary (ascii "en"), .getLoaded 0 (ascii "hi"),
    .database (oneText "Hello"), .clearDictionary 0] (d := ⟨ascii "en", ∅⟩) (i := 1) rfl rfl
    (ascii "hi")).2 rfl

def Holds (s : Internalization) (p : Nat) (tag value : List UInt8) : Prop :=
  ∃ d, s.made[p]? = some d ∧ d.map.lookup tag = some value

theorem Holds.got (h : Holds s p tag value) (lang : List UInt8) :
    Holds (s.getDictionary lang).2 p tag value := by
  obtain ⟨d, hd, hvalue⟩ := h
  rcases get_dictionary_cases lang s with ⟨q, -, hget⟩ | ⟨-, hget⟩
  · rw [hget]
    exact ⟨d, hd, hvalue⟩
  · rw [hget]
    exact ⟨d, append_there hd _, hvalue⟩

/-- A value that is there stays when another is put in. -/
theorem Holds.filled (h : Holds s p tag value) (q : Nat) (tag' value' : List UInt8) :
    Holds (s.update q (·.appendValue tag' value')) p tag value := by
  obtain ⟨d, hd, hvalue⟩ := h
  by_cases hq : q = p
  · refine ⟨d.appendValue tag' value', by simp [update_made, hq, hd], ?_⟩
    rw [Dictionary.appendValue, Table.lookup_insert_new]
    split
    · next htag =>
      subst htag
      simp [hvalue]
    · exact hvalue
  · exact ⟨d, by simp [update_made, hq, hd], hvalue⟩

theorem Holds.step (h : Holds l.state p tag value) (hne : event ≠ .clearDictionary p) :
    Holds (l.step event).state p tag value := by
  cases event with
  | getDictionary lang => exact h.got lang
  | appendDictionary lang =>
    obtain ⟨d, hd, hvalue⟩ := h
    exact ⟨d, append_there hd _, hvalue⟩
  | getLoaded q tag' =>
    cases hget : l.state.getLoaded (loadTag l.db) q tag' with
    | none => simpa [Life.step, hget] using h
    | some result =>
      obtain ⟨value', s'⟩ := result
      obtain ⟨d, -, hcases⟩ := get_loaded_cases hget
      simp only [Life.step, hget, Option.elim_some]
      rcases hcases with ⟨-, rfl⟩ | ⟨-, hload⟩
      · exact h
      · obtain ⟨-, rfl⟩ := load_tag_some hload
        exact (h.got d.lang).filled _ tag' value'
  | getValue lang tag' => exact h.got lang
  | clear => exact h
  | clearDictionary q =>
    obtain ⟨d, hd, hvalue⟩ := h
    have hq : q ≠ p := fun hq => hne (hq ▸ rfl)
    exact ⟨d, by simp [Life.step, update_made, hq, hd], hvalue⟩
  | database db => exact h

theorem Holds.run {later : List Event} (h : Holds l.state p tag value)
    (hkept : .clearDictionary p ∉ later) :
    Holds (later.foldl Life.step l).state p tag value := by
  induction later generalizing l with
  | nil => exact h
  | cons event later ih =>
    have hboth := not_or.mp (List.mem_cons.not.mp hkept)
    exact ih (h.step (Ne.symm hboth.1)) hboth.2

/-- A lookup in a dictionary of the library leaves there what it has answered. -/
theorem Sourced.kept (hs : l.Sourced) (hlib : l.state.library.lookup lang = some p)
    (h : l.lookedUp p tag = some value) : Holds (l.step (.getLoaded p tag)).state p tag value := by
  obtain ⟨⟨value, s'⟩, hget, rfl⟩ := Option.map_eq_some_iff.mp h
  obtain ⟨d, hd, hcases⟩ := get_loaded_cases hget
  simp only [Life.step, hget, Option.elim_some]
  rcases hcases with ⟨hfound, rfl⟩ | ⟨hnone, hload⟩
  · exact ⟨d, hd, hfound⟩
  · obtain ⟨-, rfl⟩ := load_tag_some hload
    obtain ⟨e, he, hlang⟩ := hs.library lang p hlib
    obtain rfl : d = e := Option.some.inj (hd.symm.trans he)
    have hgot : l.state.getDictionary d.lang = (p, l.state) := by
      rw [Internalization.getDictionary, hlang, hlib]
    refine ⟨d.appendValue tag value, ?_, ?_⟩
    · simp [moved, Internalization.appendValue, hgot, update_made, hd]
    · simp [Dictionary.appendValue, Table.lookup_insert_new, hnone]

/-- The database is asked once: what a lookup in a dictionary of the library has
answered, later lookups in this dictionary answer without it, also when the library has
been cleared, until the dictionary itself is. -/
theorem asked_once (db : Database) (events later : List Event)
    (hlib : (run db events).state.library.lookup lang = some p)
    (h : (run db events).lookedUp p tag = some value) (hkept : .clearDictionary p ∉ later)
    (load : AppendValue) :
    (run db (events ++ .getLoaded p tag :: later)).state.getLoaded load p tag =
      some (value, (run db (events ++ .getLoaded p tag :: later)).state) := by
  have hsplit : run db (events ++ .getLoaded p tag :: later) =
      later.foldl Life.step ((run db events).step (.getLoaded p tag)) := by
    rw [run, List.foldl_append]
    rfl
  obtain ⟨d, hd, hvalue⟩ := ((run_sourced db events).kept hlib h).run hkept
  rw [hsplit]
  simp [Internalization.getLoaded, hd, hvalue]

theorem text_asked_once :
    (run (oneText "Hi") ([.getDictionary (ascii "en")] ++ .getLoaded 0 (ascii "hi") ::
      [.database (oneText "Hello"), .clear])).state.getLoaded (fun _ _ _ => none) 0 (ascii "hi") =
      some (ascii "Hi", (run (oneText "Hi") ([.getDictionary (ascii "en")] ++
        .getLoaded 0 (ascii "hi") :: [.database (oneText "Hello"), .clear])).state) :=
  asked_once (oneText "Hi") [.getDictionary (ascii "en")] [.database (oneText "Hello"), .clear]
    (show (run (oneText "Hi") [.getDictionary (ascii "en")]).state.library.lookup (ascii "en") =
      some 0 from rfl) rfl (by simp) _

end Life

end Khorost.Translations
