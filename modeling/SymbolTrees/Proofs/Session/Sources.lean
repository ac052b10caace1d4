import SymbolTrees.Proofs.CallItem
import SymbolTrees.Proofs.Session.Garbled

/-!
# The objects of items

An item is given by whoever opens a tree, or it is read from an object that a server has sent: as
the first entry of an answer about a position, or at the other end of a call. It keeps that object,
whatever the object has besides what is read from it.
-/

namespace SymbolTrees

open SymbolTrees.Server (Request)

/-- The item of a call was read from the object at its other end. -/
theorem Call.of_ofJson {data : Json} {peer : Text} {call : Call} (h : ofJson data peer = .ok call) :
    ∃ o, data.part peer = .ok (.obj o) ∧ CallItem.ofJson (.obj o) = .ok call.item := by
  obtain ⟨object, hpart, h⟩ := Except.of_bind h
  obtain ⟨item, hitem, h⟩ := Except.of_bind h
  obtain ⟨field, -, h⟩ := Except.of_bind h
  obtain ⟨entries, -, h⟩ := Except.of_bind h
  obtain ⟨ranges, -, h⟩ := Except.of_bind h
  obtain rfl := Except.ok.inj h
  obtain ⟨o, rfl, -⟩ := CallItem.of_ofJson hitem
  exact ⟨o, hpart, hitem⟩

namespace Session

variable {s t : Session} {events : List Event} {id : TreeId} {path : List Nat} {n : Node}
  {k : Token} {d : CallDirection} {item parent : CallItem} {o : Json.Fields} {i : Nat}
  {request : Request} {value : Json}

/-! ### Answers -/

/-- In the run of `events` from `s`, a request was sent and was answered with `value`. -/
def Exchanged (s : Session) (events : List Event) (request : Request) (value : Json) : Prop :=
  ∃ i k, Asked (s.steps events).sent i k request ∧ Answered s events i request value

/-- The item is that of call number `i` in an answer to the request for the calls of `parent`, read
from the object `o` at the other end of the call. -/
def Called (s : Session) (events : List Event) (d : CallDirection) (parent : CallItem) (i : Nat)
    (item : CallItem) (o : Json.Fields) : Prop :=
  ∃ value entries entry, Exchanged s events (.calls d parent) value ∧
    objects value = .ok entries ∧ entries[i]? = some entry ∧
      entry.part d.peer = .ok (.obj o) ∧ CallItem.ofJson (.obj o) = .ok item

/-- Where an item has its object from, in the run of `events` from `s`. -/
inductive Source (s : Session) (events : List Event) (item : CallItem) (o : Json.Fields) :
    Prop where
  /-- A tree was opened for the item, with the object that it keeps. -/
  | given {direction : Direction} (event : .openCalls item direction ∈ events)
    (kept : item.source = o)
  /-- The object came first in an answer about a position. -/
  | prepared {request : Request} {value : Json} {rest : List Json}
    (exchanged : Exchanged s events request value) (method : request.method = .prepareCalls)
    (first : objects value = .ok (.obj o :: rest)) (read : CallItem.ofJson (.obj o) = .ok item)
  /-- The object stood at the other end of a call. -/
  | called {d : CallDirection} {parent : CallItem} {i : Nat}
    (call : Called s events d parent i item o)

/-- The object of an item is the one that it keeps. -/
theorem Source.kept (h : Source s events item o) : item.source = o := by
  have read (hr : CallItem.ofJson (.obj o) = .ok item) : item.source = o := by
    obtain ⟨o', ho, hkept⟩ := CallItem.of_ofJson hr
    rw [hkept, Json.obj.inj ho]
  cases h with
  | given _ kept => exact kept
  | prepared _ _ _ hread => exact read hread
  | called call =>
    obtain ⟨value, entries, entry, -, -, -, -, hread⟩ := call
    exact read hread

/-- There is no other object that an item can have been read from. -/
theorem Source.object (h : Source s events item o) {object : Json}
    (hr : CallItem.ofJson object = .ok item) : object = .obj o := by
  obtain ⟨fields, rfl, hkept⟩ := CallItem.of_ofJson hr
  rw [← hkept, h.kept]

theorem Exchanged.append (h : Exchanged s events request value) (hs : s.Sound) (more : List Event) :
    Exchanged s (events ++ more) request value := by
  obtain ⟨i, k, ⟨r, hr, rfl, hl, rfl⟩, ha⟩ := h
  obtain ⟨r', hr', hsame, -⟩ := (hs.steps events).sent_steps hr more
  have hfield {α : Type} (f : Sent → α) (hf : ∀ p : Sent, f p.settled = f p) : f r' = f r :=
    (hf r').symm.trans ((congrArg f hsame).trans (hf r))
  refine ⟨i, r.token, ⟨r', ?_, hfield Sent.token fun _ => rfl, ?_,
    hfield Sent.request fun _ => rfl⟩, ha.append more⟩
  · rw [steps_append, hr']
  · exact (hfield Sent.isLookup fun _ => rfl).trans hl

/-- What an item was read from stays what it was read from. -/
theorem Source.append (h : Source s events item o) (hs : s.Sound) (more : List Event) :
    Source s (events ++ more) item o := by
  cases h with
  | given event kept => exact .given (List.mem_append_left _ event) kept
  | prepared exchanged method first read =>
    exact .prepared (exchanged.append hs more) method first read
  | called call =>
    obtain ⟨value, entries, entry, hexchanged, hcall⟩ := call
    exact .called ⟨value, entries, entry, hexchanged.append hs more, hcall⟩

/-! ### Items of nodes -/

/-- The item of a node below another is that of its call. -/
theorem Traced.called {since : TreeId → List Nat → Token → Prop}
    (ht : Traced (Answered s events) since (s.steps events))
    (ho : (s.steps events).Occurs id (path ++ [i]) n)
    (hd : ((s.steps events).tree id).direction = .calls d)
    (hi : n.payload.callItem? = some item) :
    ∃ above parent o, (s.steps events).Occurs id path above ∧
      above.payload.callItem? = some parent ∧ Called s events d parent i item o := by
  obtain ⟨above, habove, hbelow⟩ : ∃ above, (s.steps events).Occurs id path above ∧
      above.children[i]? = some n := by
    have hfound := ho.found
    rw [Node.at?_append] at hfound
    obtain ⟨above, habove, hfound⟩ := Option.bind_eq_some_iff.1 hfound
    rw [Node.at?_cons] at hfound
    obtain ⟨below, hbelow, hsame⟩ := Option.bind_eq_some_iff.1 hfound
    obtain rfl := Option.some.inj hsame
    exact ⟨above, ⟨ho.isOpen, habove⟩, hbelow⟩
  have hsome : above.children ≠ [] := List.ne_nil_of_mem (List.mem_of_getElem? hbelow)
  obtain ⟨k, -, parent, calls, ⟨j, value, hasked, hanswered, hcalls⟩, hparent, hnodes⟩ :=
    ht.children id path above d habove hd hsome
  -- the call of the node is call number `i`
  have hcall := congrArg (·[i]?) hnodes
  simp only [List.getElem?_map, hbelow, Option.map_some] at hcall
  obtain ⟨call, hcall, hsame⟩ := Option.map_eq_some_iff.1 hcall.symm
  obtain rfl : call.item = item := Option.some.inj ((congrArg Prod.fst hsame).trans hi)
  obtain ⟨entries, hentries, hread⟩ := Except.of_bind hcalls
  obtain ⟨hlength, hread⟩ := List.forall₂_iff_get.1 (Except.of_mapM hread)
  have hlt : i < calls.length := (List.getElem?_eq_some_iff.1 hcall).1
  have hentry := hread i (hlength ▸ hlt) hlt
  rw [List.get_eq_getElem, List.get_eq_getElem, (List.getElem?_eq_some_iff.1 hcall).2] at hentry
  obtain ⟨o, hpart, hitem⟩ := Call.of_ofJson hentry
  exact ⟨above, parent, o, habove, hparent, value, entries, _, ⟨j, k, hasked, hanswered⟩, hentries,
    List.getElem?_eq_getElem _, hpart, hitem⟩

/-- What a tree is opened for after a pump was read from the first object of an answer. -/
theorem Elicits.source {since : TreeId → List Nat → Token → Prop} (h : (s.steps events).Sound)
    (hf : (s.steps events).Filed) (ht : Traced (Answered s events) since (s.steps events))
    (he : (s.steps events).Elicits (.calls d item)) : ∃ o, Source s events item o := by
  cases he with
  | @level value inquiry uri _ _ rest arrivals pending purpose read =>
    obtain ⟨i, request, hasked, hanswered⟩ := ht.queued _ _ arrivals
    obtain ⟨j, other, hother, hmethod⟩ := hf _ _ pending
    obtain ⟨rfl, rfl⟩ := hasked.eq h.queued.distinct hother
    obtain ⟨entries, hentries, hitems⟩ := Except.of_bind read
    obtain ⟨entry, more, hentry, hitem⟩ : ∃ entry more, entries = entry :: more ∧
        CallItem.ofJson entry = .ok item := by
      cases Except.of_mapM hitems with
      | cons hitem _ => exact ⟨_, _, rfl, hitem⟩
    obtain ⟨o, rfl, -⟩ := CallItem.of_ofJson hitem
    refine ⟨o, .prepared ⟨i, _, hasked, hanswered⟩ ?_ (hentry ▸ hentries) hitem⟩
    rw [hmethod, purpose]
    rfl

end Session

end SymbolTrees
