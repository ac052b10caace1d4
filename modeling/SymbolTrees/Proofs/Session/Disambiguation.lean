import SymbolTrees.Proofs.Session.Course
import SymbolTrees.Proofs.Session.Grafts

/-!
# Which symbols nodes stand for

That symbols are looked up makes no difference to how many nodes an answer gives, in which order, at
which depth, and for which calls. It makes a node stand for a symbol instead of its item, if and only
if its own lookup was answered in time with an object that describes the item, and then for the
first of them. What other lookups come to does not matter.
-/

namespace SymbolTrees

open SymbolTrees.Server (Outcome Request)

/-! ### Matches -/

namespace LocatedSymbol

variable {item : CallItem} {symbol : LocatedSymbol} {value : Json}

/-- The first of the objects in `entries` that describes the item reads as `symbol`; those before it
can be read and describe something else. -/
def IsFirst (item : CallItem) (entries : List Json) (symbol : LocatedSymbol) : Prop :=
  ∃ before entry after, entries = before ++ entry :: after ∧ entry.isObject ∧
    ofJson entry = .ok symbol ∧ symbol.describes item ∧
      ∀ other ∈ before, other.isObject → ∃ different, ofJson other = .ok different ∧
        different.describes item = false

theorem isFirst_cons {entry : Json} {entries : List Json} (h : IsFirst item entries symbol)
    (he : entry.isObject → ∃ different, ofJson entry = .ok different ∧
      different.describes item = false) : IsFirst item (entry :: entries) symbol := by
  obtain ⟨before, first, after, rfl, hfirst, hread, hdescribes, hbefore⟩ := h
  refine ⟨entry :: before, first, after, rfl, hfirst, hread, hdescribes, ?_⟩
  rintro other hother
  rcases List.mem_cons.1 hother with rfl | hother
  · exact he
  · exact hbefore other hother

theorem of_isFirst_cons {entry : Json} {entries : List Json}
    (h : IsFirst item (entry :: entries) symbol) :
    (entry.isObject ∧ ofJson entry = .ok symbol ∧ symbol.describes item) ∨
      (entry.isObject → ∃ different, ofJson entry = .ok different ∧
        different.describes item = false) ∧ IsFirst item entries symbol := by
  obtain ⟨before, first, after, he, hfirst, hread, hdescribes, hbefore⟩ := h
  cases before with
  | nil =>
    obtain ⟨rfl, -⟩ := List.cons.inj he
    exact .inl ⟨hfirst, hread, hdescribes⟩
  | cons head before =>
    obtain ⟨rfl, rfl⟩ := List.cons.inj he
    exact .inr ⟨hbefore _ List.mem_cons_self, before, first, after, rfl, hfirst, hread, hdescribes,
      fun other ho => hbefore other (List.mem_cons_of_mem _ ho)⟩

theorem firstFor_eq_some_iff {entries : List Json} :
    firstFor item entries = .ok (some symbol) ↔ IsFirst item entries symbol := by
  induction entries with
  | nil =>
    refine iff_of_false (fun h => ?_) fun h => ?_
    · cases Except.ok.inj h
    · obtain ⟨before, entry, after, he, -⟩ := h
      simp at he
  | cons entry rest ih =>
    unfold firstFor
    by_cases ho : entry.isObject
    · rw [if_pos ho]
      cases hr : ofJson entry with
      | error reason =>
        refine iff_of_false (fun h => by cases h) fun h => ?_
        rcases of_isFirst_cons h with ⟨-, hread, -⟩ | ⟨hother, -⟩
        · cases hr.symm.trans hread
        · obtain ⟨_, hread, -⟩ := hother ho
          cases hr.symm.trans hread
      | ok read =>
        change (if read.describes item then pure (some read) else firstFor item rest) = _ ↔ _
        by_cases hd : read.describes item
        · rw [if_pos hd]
          constructor
          · intro h
            obtain rfl := Option.some.inj (Except.ok.inj h)
            exact ⟨[], entry, rest, rfl, ho, hr, hd, by simp⟩
          · intro h
            rcases of_isFirst_cons h with ⟨-, hread, -⟩ | ⟨hother, -⟩
            · obtain rfl := Except.ok.inj (hr.symm.trans hread)
              rfl
            · obtain ⟨different, hread, hnot⟩ := hother ho
              obtain rfl := Except.ok.inj (hr.symm.trans hread)
              rw [hd] at hnot
              cases hnot
        · rw [if_neg hd, ih]
          constructor
          · exact fun h => isFirst_cons h fun _ => ⟨read, hr, by simpa using hd⟩
          · intro h
            rcases of_isFirst_cons h with ⟨-, hread, hdescribes⟩ | ⟨-, hrest⟩
            · obtain rfl := Except.ok.inj (hr.symm.trans hread)
              exact absurd hdescribes hd
            · exact hrest
    · rw [if_neg ho, ih]
      constructor
      · exact fun h => isFirst_cons h fun hobject => absurd hobject ho
      · exact fun h => (of_isFirst_cons h).elim (fun hobject => absurd hobject.1 ho) (·.2)

/-- The answer is a list whose first object that describes the item reads as `symbol`. -/
def FirstMatch (item : CallItem) (value : Json) (symbol : LocatedSymbol) : Prop :=
  ∃ entries, value = .arr entries ∧ IsFirst item entries symbol

theorem find?_eq_some_iff : find? item value = .ok (some symbol) ↔ FirstMatch item value symbol := by
  cases value with
  | arr entries =>
    refine firstFor_eq_some_iff.trans ⟨fun h => ⟨entries, rfl, h⟩, ?_⟩
    rintro ⟨_, he, h⟩
    obtain rfl := Json.arr.inj he
    exact h
  | _ => exact iff_of_false (fun h => by cases h) fun ⟨_, he, _⟩ => by cases he

theorem FirstMatch.describes (h : FirstMatch item value symbol) : symbol.describes item := by
  obtain ⟨-, -, -, -, -, -, -, -, h, -⟩ := h
  exact h

theorem told_eq_some_iff {outcome : Outcome} :
    told item outcome = some symbol ↔ ∃ value, outcome = .answer value ∧
      FirstMatch item value symbol := by
  cases outcome with
  | answer value =>
    rw [told]
    constructor
    · intro h
      refine ⟨value, rfl, find?_eq_some_iff.1 ?_⟩
      split at h
      · rename_i found hf
        rw [hf, h]
      · cases h
    · rintro ⟨_, he, hmatch⟩
      obtain rfl := Outcome.answer.inj he
      rw [find?_eq_some_iff.2 hmatch]
  | _ =>
    refine iff_of_false (fun h => by cases h) ?_
    rintro ⟨_, he, -⟩
    cases he

end LocatedSymbol

namespace Session

variable {s t : Session} {id : TreeId} {ref target : NodeRef} {j : Nat} {depth : Int} {call : Call}
  {calls : List Call} {n : Node} {nodes : List Node} {sent : List Sent} {symbol : LocatedSymbol}
  {found : Option LocatedSymbol} {own : Nat → Option Nat} {events : List Event}
  {came : Nat → Request → Outcome → Prop}

/-! ### Nodes of calls -/

/-- The nodes of calls for which no symbols are looked up. -/
def plainNodes (depth : Int) (calls : List Call) : List Node :=
  calls.map fun call => childOf depth call none

/-- A node that differs from a plain one in that it stands for a symbol of the same name at most. -/
structure Refines (plain n : Node) : Prop where
  name : n.name = plain.name
  depth : n.depth = plain.depth
  ranges : n.callRanges = plain.callRanges
  item : n.payload.callItem? = plain.payload.callItem?
  payload : n.payload = plain.payload ∨ ∃ symbol, n.payload = .located symbol plain.payload.callItem?

theorem refines_of_mark (hm : n.mark = (childOf depth call found).mark)
    (hd : ∀ symbol, found = some symbol → symbol.describes call.item) :
    Refines (childOf depth call none) n := by
  obtain ⟨hp, hm⟩ := Prod.mk.inj hm
  obtain ⟨hdepth, hranges⟩ := Prod.mk.inj hm
  cases found with
  | none => exact ⟨congrArg Payload.name hp, hdepth, hranges, congrArg Payload.callItem? hp, .inl hp⟩
  | some symbol =>
    have hname : symbol.name = call.item.name := by
      have hdescribes := hd symbol rfl
      rw [LocatedSymbol.describes, Bool.and_eq_true, Bool.and_eq_true, beq_iff_eq] at hdescribes
      exact hdescribes.1.1
    exact ⟨(congrArg Payload.name hp).trans hname, hdepth, hranges,
      (congrArg Payload.callItem? hp).trans rfl, .inr ⟨symbol, hp⟩⟩

theorem payload_childOf_eq_iff (depth : Int) :
    (childOf depth call found).payload = .located symbol (some call.item) ↔ found = some symbol := by
  cases found with
  | none => exact iff_of_false (fun h => by cases h) fun h => by cases h
  | some other =>
    refine ⟨fun h => ?_, fun h => ?_⟩
    · rw [(Payload.located.inj h).1]
    · rw [Option.some.inj h]
      rfl

/-- A call stands for a symbol if and only if its own lookup was answered with a match. -/
theorem Verdict.eq_some_iff (hv : Verdict came own s sent calls j call found)
    (hunique : ∀ i request outcome other, came i request outcome → came i request other →
      outcome = other) : found = some symbol ↔ ∃ i value, own j = some i ∧
      came i (.workspaceSymbols call.item.name) (.answer value) ∧
        LocatedSymbol.FirstMatch call.item value symbol := by
  cases hv with
  | skipped hnone =>
    refine iff_of_false (fun h => by cases h) ?_
    rintro ⟨i, value, ho, -⟩
    cases hnone.symm.trans ho
  | unheard owns searched silent =>
    refine iff_of_false (fun h => by cases h) ?_
    rintro ⟨i, value, ho, hc, -⟩
    obtain rfl := Option.some.inj (owns.symm.trans ho)
    exact silent _ hc
  | @heard i l outcome owns searched comes =>
    refine LocatedSymbol.told_eq_some_iff.trans ⟨?_, ?_⟩
    · rintro ⟨value, rfl, hmatch⟩
      exact ⟨i, value, owns, comes, hmatch⟩
    · rintro ⟨i', value, ho, hc, hmatch⟩
      obtain rfl := Option.some.inj (owns.symm.trans ho)
      exact ⟨value, hunique _ _ _ _ comes hc, hmatch⟩

/-- A call without a lookup of its own stands for no symbol. -/
theorem Verdict.eq_none_of_own (hv : Verdict came own s sent calls j call found)
    (hnone : own j = none) : found = none := by
  cases hv with
  | skipped => rfl
  | unheard => rfl
  | heard owns => cases hnone.symm.trans owns

theorem Verdict.searched_of_own (hv : Verdict came own s sent calls j call found) {i : Nat}
    (ho : own j = some i) : ∃ l, Searched sent i l (.workspaceSymbols call.item.name) := by
  cases hv with
  | skipped none => cases none.symm.trans ho
  | unheard owns searched =>
    obtain rfl := Option.some.inj (owns.symm.trans ho)
    exact ⟨_, searched⟩
  | heard owns searched =>
    obtain rfl := Option.some.inj (owns.symm.trans ho)
    exact ⟨_, searched⟩

/-- A call is looked up, unless nothing is or a recording cannot be asked. -/
theorem Verdict.exists_own (hv : Verdict came own s sent calls j call found)
    (hresolves : s.settings.resolveSymbols)
    (hheard : ∀ other ∈ calls, ¬s.client.Baffled (.workspaceSymbols other.item.name)) :
    ∃ i, own j = some i := by
  cases hv with
  | skipped none reason =>
    rcases reason with hplain | ⟨other, hother, hbaffled⟩
    · cases hplain.symm.trans hresolves
    · exact absurd hbaffled (hheard other hother)
  | unheard owns => exact ⟨_, owns⟩
  | heard owns => exact ⟨_, owns⟩

/-- How the nodes of the calls of an answer stand to their lookups after the run of `events` from
`s`, where the lookup that was sent for call number `j` was sent as number `own j`. -/
structure Disambiguated (s : Session) (events : List Event) (own : Nat → Option Nat)
    (sent : List Sent) (depth : Int) (calls : List Call) (nodes : List Node) : Prop where
  /-- One for one and in order the nodes refine those that there are without lookups. -/
  refines : List.Forall₂ Refines (plainNodes depth calls) nodes
  plain : s.settings.resolveSymbols = false →
    nodes.map Node.mark = (plainNodes depth calls).map Node.mark
  /-- The lookup of a call asks for the name of its item. -/
  searched : ∀ j call i, calls[j]? = some call → own j = some i →
    ∃ l, Searched sent i l (.workspaceSymbols call.item.name)
  /-- All calls are looked up, unless a recording cannot be asked for one of them. -/
  looked : s.settings.resolveSymbols →
    (∀ call ∈ calls, ¬s.client.Baffled (.workspaceSymbols call.item.name)) →
      ∀ j < calls.length, ∃ i, own j = some i
  /-- A node stands for a symbol if and only if the lookup of its call was answered in time with a
  list in which the first object that describes the item is this symbol. -/
  located : ∀ j call n symbol, calls[j]? = some call → nodes[j]? = some n →
    (n.payload = .located symbol (some call.item) ↔ ∃ i value, own j = some i ∧
      Answered s events i (.workspaceSymbols call.item.name) value ∧
        LocatedSymbol.FirstMatch call.item value symbol)

theorem mark_of_zipWith {symbols : List (Option LocatedSymbol)}
    (hm : nodes.map Node.mark = (calls.zipWith (childOf depth) symbols).map Node.mark)
    (hcall : calls[j]? = some call) (hfound : symbols[j]? = some found) (hn : nodes[j]? = some n) :
    n.mark = (childOf depth call found).mark := by
  have hj := congrArg (·[j]?) hm
  simp only [List.getElem?_map, List.getElem?_zipWith, hcall, hfound, hn, Option.map_some] at hj
  exact Option.some.inj hj

/-- The nodes of an answer are disambiguated if they are made with what the lookups came to. -/
theorem disambiguated_of_verdicts {client : Client} {settings : Settings} {root : Path}
    {now : Number} {symbols : List (Option LocatedSymbol)}
    (hs : s = start client settings root now)
    (hg : t.settings = s.settings ∧ t.client = s.client)
    (hplain : t.settings.resolveSymbols = false → ∀ j, own j = none)
    (hm : nodes.map Node.mark = (calls.zipWith (childOf depth) symbols).map Node.mark)
    (hlength : symbols.length = calls.length)
    (hv : ∀ (j : Nat) (call : Call), calls[j]? = some call → ∃ found, symbols[j]? = some found ∧
      Verdict (Came s events) own t sent calls j call found) :
    Disambiguated s events own sent depth calls nodes := by
  have hunique (i : Nat) (request : Request) (outcome other : Outcome)
      (h : Came s events i request outcome) (h' : Came s events i request other) :
      outcome = other := by
    subst hs
    exact came_unique client settings root now h h'
  have hnodes : nodes.length = calls.length := by
    have hl := congrArg List.length hm
    rwa [List.length_map, List.length_map, List.length_zipWith, hlength, Nat.min_self] at hl
  refine ⟨List.forall₂_iff_get.2 ⟨by rw [plainNodes, List.length_map, hnodes], ?_⟩, ?_, ?_, ?_, ?_⟩
  · intro j hj hn
    have hcall : calls[j]? = some (calls.get ⟨j, hnodes ▸ hn⟩) := List.getElem?_eq_getElem _
    obtain ⟨found, hfound, hverdict⟩ := hv j _ hcall
    simp only [plainNodes, List.get_eq_getElem, List.getElem_map]
    refine refines_of_mark (mark_of_zipWith hm hcall hfound (List.getElem?_eq_getElem hn)) ?_
    rintro symbol rfl
    obtain ⟨_, _, -, -, hmatch⟩ := (hverdict.eq_some_iff hunique).1 rfl
    exact hmatch.describes
  · intro hresolves
    refine hm.trans (congrArg (List.map Node.mark) (List.ext_getElem? fun j => ?_))
    rw [plainNodes, List.getElem?_zipWith, List.getElem?_map]
    cases hcall : calls[j]? with
    | none => rfl
    | some call =>
      obtain ⟨found, hfound, hverdict⟩ := hv j call hcall
      rw [hfound, hverdict.eq_none_of_own (hplain (hg.1 ▸ hresolves) j)]
      rfl
  · intro j call i hcall ho
    obtain ⟨found, -, hverdict⟩ := hv j call hcall
    exact hverdict.searched_of_own ho
  · intro hresolves hheard j hj
    obtain ⟨found, -, hverdict⟩ := hv j _ (List.getElem?_eq_getElem hj)
    exact hverdict.exists_own (hg.1 ▸ hresolves) (hg.2 ▸ hheard)
  · intro j call n symbol hcall hn
    obtain ⟨found, hfound, hverdict⟩ := hv j call hcall
    simp only [← came_answer]
    rw [← hverdict.eq_some_iff hunique, ← payload_childOf_eq_iff depth]
    exact Eq.congr_left (congrArg (·.1) (mark_of_zipWith hm hcall hfound hn))

/-! ### After every run -/

/-- Nodes that wait for the same request are the same. -/
theorem Sound.node_eq_of_waits (h : s.Sound) {k : Token} {inquiry : Inquiry} {other : TreeId}
    (hi : s.pending.get? k = some inquiry) (hm : s.Member id ref)
    (hw : (s.node ref).pending = some k) (hm' : s.Member other target)
    (hw' : (s.node target).pending = some k) : s.node ref = s.node target := by
  have ho := hm.occurs h
  have ho' := hm'.occurs h
  obtain ⟨rfl, hpath⟩ := h.occurs_unique hi ho hw ho' hw'
  exact Option.some.inj (ho.found.symm.trans (hpath ▸ ho'.found))

/-- What holds of the nodes that a session gets when it is drained after the run of `events`, be it
to the end or only up to where what has arrived cannot be dealt with. -/
structure Disambiguation (s : Session) (events : List Event) (own : Owners) : Prop where
  apart : own.Apart
  /-- Nodes that are new below a node are those of the calls of an answer, which was asked for the
  item of this node. -/
  grown : ∀ id ref, (s.steps events).Member id ref → ((s.steps events).node ref).children = [] →
    ((drain.after (s.steps events)).node ref).children ≠ [] →
      ∃ k i direction item value calls, ((s.steps events).tree id).direction = .calls direction ∧
        ((s.steps events).node ref).payload.callItem? = some item ∧
          Asked (s.steps events).sent i k (.calls direction item) ∧
            Answered s events i (.calls direction item) value ∧
              callsOf direction value = .ok calls ∧
                Disambiguated s events (own k) (drain.after (s.steps events)).sent
                  (((s.steps events).node ref).depth + 1) calls
                    ((drain.after (s.steps events)).node ref).children

/-- **Disambiguation is conservative.** Whatever becomes of lookups, in whatever order: the nodes of
an answer are those that there are without lookups, but that each stands for the symbol with which
its own lookup was answered in time, if there is one. -/
theorem disambiguation_steps (client : Client) (settings : Settings) (root : Path) (now : Number)
    (events : List Event) : ∃ own, Disambiguation (start client settings root now) events own := by
  obtain ⟨own, h, -⟩ := tracked_steps client settings root now events
  obtain ⟨own', results, u, hchain, hcarried, hregistry, hsent⟩ := h.after_drain
    ((Steady.of_start client settings root now).steps events)
  refine ⟨own', hcarried.tracked.attributed.apart, fun id ref hm hnone hsome => ?_⟩
  have hnode : (drain.after ((start client settings root now).steps events)).node ref = u.node ref :=
    congrArg (Registry.node · ref) hregistry
  rw [hnode] at hsome ⊢
  rcases hchain.grows h.sound hm with hstays | ⟨k, target, generation, d, nodes, hr, hw, -, hmarks⟩
  · refine absurd (List.map_eq_nil_iff.1 (hstays.children.trans ?_)) hsome
    rw [marks, hnone, List.map_nil]
  obtain ⟨inquiry, hi, hp, -⟩ := (hchain.accounts lawful_progress h.sound).known _ hr
  have hlive := h.sound.isLive_of_member hm hw hi
  obtain ⟨htarget, hwaits, -⟩ := h.sound.live hi hp.symm hlive
  have hsame := h.sound.node_eq_of_waits hi hm hw htarget hwaits
  obtain ⟨-, i, direction, item, hasked, hdirection, hitem, -⟩ :=
    h.traced.waiting _ _ _ _ inquiry (hm.occurs h.sound) hw hi
  have hmoves := hchain.moves (fun _ _ _ hu hp => lawful_progress.moves hu hp) h.sound
  have hframe := hchain.frame lawful_progress
  obtain ⟨hsettings, hclient, -⟩ := given_steps client settings root now events
  cases hcarried.brought _ hr with
  | bare bare => exact absurd rfl (bare nodes)
  | @children _ _ _ _ _ _ calls found brings length verdicts =>
    obtain ⟨i', value, hasked', hcame, hread⟩ := brings
    obtain ⟨rfl, he⟩ := (hasked.extend hmoves.sent_grows).eq hcarried.tracked.sound.queued.distinct
      hasked'
    obtain ⟨rfl, rfl⟩ := Request.calls.inj he
    refine ⟨k, i, direction, item, value, calls, hdirection, hitem, hasked, came_answer.1 hcame,
      hread, disambiguated_of_verdicts rfl ⟨hsettings, hclient⟩ ?_ (hsame ▸ hmarks) length
        fun j call hcall => ?_⟩
    · exact fun hresolves => hcarried.tracked.attributed.plain (hframe.settings ▸ hresolves) k
    · obtain ⟨symbol, hfound, hverdict⟩ := verdicts j call hcall
      exact ⟨symbol, hfound, hverdict.transfer rfl hsent ⟨rfl, rfl⟩⟩

end Session

end SymbolTrees
