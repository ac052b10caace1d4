import SymbolTrees.Command
import SymbolTrees.Proofs.Session.Impediment
import SymbolTrees.Proofs.Session.Interlude

/-!
# Commands

A command acts or explains. Either what it is for is done, on the most recent tree of a kind and the
node on the row, and the user is told nothing, or one notification says why not, and nothing else
changes. But a fault escapes where a number is to be told that has too many digits, and where the
deadline of a request cannot be told (`Escapes`).
-/

namespace SymbolTrees

open SymbolTrees.Server (Request)

namespace Session

variable {s t : Session} {id : TreeId} {ref : NodeRef} {row : Option Int} {line : Int}
  {command : Command} {binding : Binding} {event : Event} {commands : Commands} {name : Text}
  {α : Type}

/-! ### What commands are for -/

/-- What an event answers, as a command answers it. -/
def Report.reply : Report → Reply
  | .token k => tokenReply k
  | .tree (some id) => .opened id
  | .location place => .location place
  | .lines texts => .lines texts
  | .done isDone => .closed isDone
  | _ => .nothing

/-- The node on a row of a tree, if there is a row and a node on it. -/
def nodeOn? (s : Session) (id : TreeId) (row : Option Int) : Option NodeRef :=
  row.bind (s.nodeAt? id)

/-- What a command is for, on a tree and the node on a row of it. -/
def commandEvent? (s : Session) (id : TreeId) (row : Option Int) : Command → Option Event
  | .expand => (s.nodeOn? id row).map (.expand id)
  | .collapse => (s.nodeOn? id row).map (.collapse id)
  | .toggle => (s.nodeOn? id row).map (.toggle id)
  | .focus => (s.nodeOn? id row).map (.focus id)
  | .jump => (s.nodeOn? id row).map (.jump id)
  | .details => (s.nodeOn? id row).map (.details id)
  | .switch => some (.switchDirection id)
  | .close => some (.close (s.tree id).handle)
  | .hide => some (.setHidden (s.tree id).handle true)
  | .show => some (.setHidden (s.tree id).handle false)
  | .report | .refuse _ => none

theorem nodeOn?_of_isOpen (ho : s.isOpen id) (row : Option Int) :
    s.nodeOn? id row = (row.bind (s.tree id).nodeAt?).map (NodeRef.mk id) := by
  cases row with
  | none => rfl
  | some line => exact if_pos ho

theorem nodeOnRow_of_some (ho : s.isOpen id) (hon : s.nodeOn? id row = some ref) :
    nodeOnRow id row s = .ok ref s := by
  rw [nodeOn?_of_isOpen ho] at hon
  obtain ⟨place, hplace, rfl⟩ := Option.map_eq_some_iff.1 hon
  unfold nodeOnRow
  refine (Action.bind_of_ok (s := s) rfl).trans ?_
  rw [hplace]
  rfl

theorem nodeOnRow_of_none (ho : s.isOpen id) (hon : s.nodeOn? id row = none) :
    nodeOnRow id row s = .error (Missing.row row).fault s := by
  rw [nodeOn?_of_isOpen ho] at hon
  unfold nodeOnRow
  refine (Action.bind_of_ok (s := s) rfl).trans ?_
  rw [Option.map_eq_none_iff.1 hon]
  rfl

/-- A command answers what the operation that it is for answers. -/
theorem map_reply {x : SessionM α} {f : α → Report} {g : α → Reply} (h : ∀ a, (f a).reply = g a) :
    (g <$> x) s = (Report.reply <$> (x >>= fun a => pure (f a))) s := by
  rw [map_eq_pure_bind, map_eq_pure_bind, bind_assoc]
  simp only [pure_bind, h]

theorem carryOut_of_event? (ho : s.isOpen id) (he : s.commandEvent? id row command = some event) :
    carryOut command id row s = (Report.reply <$> event.act) s := by
  have onNode {x : NodeRef → SessionM Reply} {make : NodeRef → Event}
      (hmake : (s.nodeOn? id row).map make = some event)
      (hx : ∀ ref, x ref s = (Report.reply <$> (make ref).act) s) :
      (nodeOnRow id row >>= x) s = (Report.reply <$> event.act) s := by
    obtain ⟨ref, hon, rfl⟩ := Option.map_eq_some_iff.1 hmake
    exact (Action.bind_of_ok (nodeOnRow_of_some ho hon)).trans (hx ref)
  cases command with
  | expand => exact onNode he fun _ => map_reply fun _ => rfl
  | collapse => exact onNode he fun ref => map_reply (x := collapse id ref) fun _ => rfl
  | toggle => exact onNode he fun _ => map_reply fun _ => rfl
  | focus => exact onNode he fun _ => map_reply fun _ => rfl
  | jump => exact onNode he fun _ => map_reply fun _ => rfl
  | details => exact onNode he fun _ => map_reply fun _ => rfl
  | switch =>
    obtain rfl := Option.some.inj he
    exact map_reply fun _ => rfl
  | close =>
    obtain rfl := Option.some.inj he
    exact map_reply (x := close (s.tree id).handle) fun _ => rfl
  | hide =>
    obtain rfl := Option.some.inj he
    exact map_reply (x := setHidden (s.tree id).handle true) fun _ => rfl
  | «show» =>
    obtain rfl := Option.some.inj he
    exact map_reply (x := setHidden (s.tree id).handle false) fun _ => rfl
  | report => cases he
  | refuse text => cases he

/-- What holds of all built-in commands holds of the one of a name. -/
theorem of_builtIn {P : Binding → Prop} (hb : Commands.builtIn.get? name = some binding)
    (hall : ∀ entry ∈ Commands.builtIn, P entry.2) : P binding := hall _ (Table.mem_of_get? hb)

/-- Only a command that needs a row can be for nothing, and then no node is on the row. -/
theorem commandEvent?_eq_none_iff (hb : Commands.builtIn.get? name = some binding) :
    s.commandEvent? id row binding.command = none ↔
      binding.needsRow ∧ s.nodeOn? id row = none := by
  refine of_builtIn (P := fun binding => s.commandEvent? id row binding.command = none ↔
    binding.needsRow ∧ s.nodeOn? id row = none) hb ?_
  simp [Commands.builtIn, commandEvent?]

theorem carryOut_of_absent (ho : s.isOpen id) (hb : Commands.builtIn.get? name = some binding)
    (hneeds : binding.needsRow) (hon : s.nodeOn? id row = none) :
    carryOut binding.command id row s = .error (Missing.row row).fault s := by
  have hnone (x : NodeRef → SessionM Reply) :
      (nodeOnRow id row >>= x) s = .error (Missing.row row).fault s :=
    Action.bind_of_error (nodeOnRow_of_none ho hon)
  -- The commands that need a row look for the node first, and the others need none.
  revert hneeds
  refine of_builtIn (P := fun binding => binding.needsRow →
    carryOut binding.command id row s = .error (Missing.row row).fault s) hb ?_
  simp only [Commands.builtIn, List.forall_mem_cons, forall_true_left]
  refine ⟨hnone _, hnone _, hnone _, hnone _, hnone _, hnone _, nofun, nofun, nofun, nofun, nofun⟩

/-! ### How a command ends -/

/-- What a command is refused for, or does not find, is told. -/
def excuse : Fault → SessionM Reply
  | .refused reason => explain .warning reason.message
  | .missing what => explain .warning what.message
  | fault => throw fault

/-- What comes of a command that is tried. -/
def relay (x : SessionM Reply) : SessionM Reply := tryCatch x excuse

theorem relay_ok {x : SessionM Reply} {reply : Reply} (h : x s = .ok reply t) :
    relay x s = .ok reply t := by
  change EStateM.tryCatch x _ s = _
  rw [EStateM.tryCatch, h]

theorem relay_error {x : SessionM Reply} {e : Fault} (h : x s = .error e t) :
    relay x s = excuse e t := by
  change EStateM.tryCatch x _ s = _
  rw [EStateM.tryCatch, h]
  rfl

theorem run_of_unbound {kind : Option Text} (hb : commands.bindings.get? name = none) :
    run commands name row kind s = .ok .nothing
      { s with journal := s.journal.notify .error ("unknown command: " ++ name) } := by
  unfold run
  rw [hb]
  rfl

theorem run_of_rowless {kind : Option Text} (hb : commands.bindings.get? name = some binding)
    (hrow : (binding.needsRow && row.isNone) = true) : run commands name row kind s = .ok .nothing
      { s with journal := s.journal.notify .warning (name ++ " needs a line") } := by
  unfold run
  rw [hb]
  dsimp only
  rw [hrow]
  rfl

/-- A command that is known and has the row that it needs is for the most recent tree of a kind. -/
theorem run_of_bound {kind : Option Text} {k : TreeKind}
    (hb : commands.bindings.get? name = some binding)
    (hrow : (binding.needsRow && row.isNone) = false) (hk : kindFor commands kind = .ok k) :
    run commands name row kind s = match s.registry.get? k with
      | none => .ok .nothing
        { s with journal := s.journal.notify .warning s!"no {k.text} tree is open" }
      | some id => relay (carryOut binding.command id row) s := by
  unfold run
  rw [hb]
  dsimp only
  rw [hrow, hk]
  change (match s.registry.get? k with
    | none => explain .warning s!"no {k.text} tree is open"
    | some id => relay (carryOut binding.command id row) : SessionM Reply) s = _
  cases s.registry.get? k <;> rfl

/-- A command for a kind of trees that there is none of fails, and is not refused. -/
theorem run_of_unknownKind {kind : Option Text} {e : Fault}
    (hb : commands.bindings.get? name = some binding)
    (hrow : (binding.needsRow && row.isNone) = false) (hk : kindFor commands kind = .error e) :
    run commands name row kind s = .error e s ∧ e.isRejection = false := by
  constructor
  · unfold run
    rw [hb]
    dsimp only
    rw [hrow, hk]
    rfl
  · unfold kindFor at hk
    split at hk
    · unfold TreeKind.ofText at hk
      split at hk
      · cases hk
      · obtain rfl := Except.error.inj hk
        rfl
    · cases hk

/-! ### Rows and nodes -/

/-- What stands on a row of a tree that is drawn is a node of it. -/
theorem Drawn.member_of_nodeAt? (hd : s.Drawn ∅) (h : s.nodeAt? id line = some ref) :
    s.Member id ref := by
  have ho : s.isOpen id := by
    unfold nodeAt? at h
    split at h
    · assumption
    · cases h
  obtain ⟨buffer, view, hshows⟩ := hd.shows ho (Set.notMem_empty id)
  have hrow : ((view.lineMap (s.tree id)).get? line).map (NodeRef.mk id) = some ref := by
    rw [← hshows.depicts.lineMap]
    exact (if_pos ho).symm.trans h
  have hpos : 0 < line := by
    by_contra hn
    rw [View.get?_lineMap_of_not_pos view (s.tree id) hn] at hrow
    cases hrow
  obtain ⟨i, rfl⟩ : ∃ i : Nat, line = (i : Int) + 1 := ⟨(line - 1).toNat, by omega⟩
  rw [View.get?_lineMap] at hrow
  cases hi : view[i]? with
  | none =>
    rw [hi] at hrow
    cases hrow
  | some r =>
    obtain ⟨other, hat, hm, -⟩ := hshows.rows i r hi
    rw [h] at hat
    exact Option.some.inj hat ▸ hm

/-- Every line of the buffer of a tree is the row of a node. -/
theorem Drawn.nodeAt?_of_buffer (hd : s.Drawn ∅) (ho : s.isOpen id) {buffer : Buffer}
    (hb : s.buffers.get? (s.tree id).handle = some buffer) (hpos : 1 ≤ line)
    (hlast : line ≤ buffer.lines.length) : ∃ ref, s.nodeAt? id line = some ref := by
  obtain ⟨other, view, hshows⟩ := hd.shows ho (Set.notMem_empty id)
  obtain rfl : buffer = other := Option.some.inj (hb.symm.trans hshows.held)
  obtain ⟨i, rfl⟩ : ∃ i : Nat, line = (i : Int) + 1 := ⟨(line - 1).toNat, by omega⟩
  rw [hshows.depicts.lines, View.lines, List.length_map] at hlast
  have hi : i < view.length := by omega
  obtain ⟨ref, hat, -⟩ := hshows.rows i view[i] (List.getElem?_eq_getElem hi)
  exact ⟨ref, hat⟩

/-! ### What an event of a command comes to -/

/-- The event is done without a word, and nothing was in its way. -/
structure Succeeds (s : Session) (id : TreeId) (event : Event) (t : Session) : Prop where
  fares : s.Fares (Due s event) t
  speakable : ∀ ref, event = .details id ref → ¬s.Unspeakable id ref

/-- The event is refused with nothing done, comes too late, or is about a line that cannot be
told. -/
inductive Miscarries (s : Session) (id : TreeId) (event : Event) : Fault → Session → Prop where
  | fails {e : Fault} {t : Session} (fails : s.Fails (Due s event) e t)
    (speakable : ∀ ref, event ≠ .details id ref) : Miscarries s id event e t
  | untold {ref : NodeRef} (isDetails : event = .details id ref)
    (unspeakable : s.Unspeakable id ref) : Miscarries s id event (.malformed .tooLong) s

theorem due_expand {request : Request} :
    s.Wants id ref request ↔ Due s (.expand id ref) request := by
  refine ⟨.expand, fun hdue => ?_⟩
  cases hdue
  assumption

theorem due_toggle {request : Request} :
    s.Wants id ref request ↔ Due s (.toggle id ref) request := by
  refine ⟨.toggle, fun hdue => ?_⟩
  cases hdue
  assumption

/-- **What a command is for succeeds or miscarries**, and never for want of its node. -/
theorem succeeds_event (h : s.Sound) (hb : ∀ request, ¬s.client.Baffled request)
    (hd : s.Drawable id) (hm : ∀ ref, s.nodeOn? id row = some ref → s.Member id ref)
    (he : s.commandEvent? id row command = some event) :
    event.act.Ends s (fun _ t => s.Succeeds id event t) (s.Miscarries id event) := by
  have returns {α : Type} {x : SessionM α} {f : α → Report} (hne : ∀ ref, event ≠ .details id ref)
      (hx : x.Ends s (fun _ t => s.Fares (Due s event) t) (s.Fails (Due s event))) :
      (x >>= fun a => pure (f a)).Ends s (fun _ t => s.Succeeds id event t)
        (s.Miscarries id event) :=
    .bind (hx.mono (fun _ _ ht => .pure ⟨ht, fun ref hi => absurd hi (hne ref)⟩)
      fun _ _ hf => .fails hf hne)
  have node {make : NodeRef → Event} (hmake : (s.nodeOn? id row).map make = some event) :
      ∃ ref, s.Member id ref ∧ event = make ref := by
    obtain ⟨ref, hon, rfl⟩ := Option.map_eq_some_iff.1 hmake
    exact ⟨ref, hm ref hon, rfl⟩
  cases command with
  | expand =>
    obtain ⟨ref, hm, rfl⟩ := node he
    exact returns nofun ((fares_expand h hb hd hm).mono
      (fun _ _ ht => ht.congr fun _ => due_expand) fun _ _ hf => hf.congr fun _ => due_expand)
  | collapse =>
    obtain ⟨ref, hm, rfl⟩ := node he
    have hidle : ∀ request, ¬Due s (.collapse id ref) request := fun _ hdue => by cases hdue
    exact returns (f := fun _ => .nothing) nofun (fares_collapse h hd hm hidle)
  | toggle =>
    obtain ⟨ref, hm, rfl⟩ := node he
    exact returns nofun ((fares_toggle h hb hd hm).mono
      (fun _ _ ht => ht.congr fun _ => due_toggle) fun _ _ hf => hf.congr fun _ => due_toggle)
  | focus =>
    obtain ⟨ref, hm, rfl⟩ := node he
    exact returns nofun (fares_focus h hb hd hm)
  | jump =>
    obtain ⟨ref, hm, rfl⟩ := node he
    exact returns nofun (fares_jump hm)
  | details =>
    obtain ⟨ref, hm, rfl⟩ := node he
    have hidle : ∀ request, ¬Due s (.details id ref) request := fun _ hdue => by cases hdue
    refine .bind ((fares_details hd hm h).mono ?_ ?_)
    · rintro texts _ ⟨hspeakable, rfl⟩
      refine .pure ⟨⟨not_belated hidle, rfl⟩, ?_⟩
      rintro _ ⟨⟩
      exact hspeakable
    · rintro _ _ ⟨hunspeakable, rfl, rfl⟩
      exact .untold rfl hunspeakable
  | switch =>
    obtain rfl := Option.some.inj he
    exact returns nofun (fares_switchDirection h hb hd)
  | close =>
    obtain rfl := Option.some.inj he
    exact returns nofun (fares_close h hd.isOpen)
  | hide =>
    obtain rfl := Option.some.inj he
    exact returns nofun (fares_setHidden hd.isOpen true)
  | «show» =>
    obtain rfl := Option.some.inj he
    exact returns nofun (fares_setHidden hd.isOpen false)
  | report => cases he
  | refuse text => cases he

/-! ### What a user sees of a command -/

section Answers

variable (s : Session) (kind : TreeKind) (name : Text) (row : Option Int)

/-- What the command is for is done, on the most recent tree of the kind and the node on the row.
The command answers what that answers, and the user is told nothing. -/
inductive Acts : Reply → Session → Prop where
  | done {binding : Binding} {id : TreeId} {event : Event} {report : Report} {t : Session}
    (bound : Commands.builtIn.get? name = some binding) (recent : s.registry.get? kind = some id)
    (isFor : s.commandEvent? id row binding.command = some event)
    (done : event.act s = .ok report t) (silent : t.journal.notes = s.journal.notes) :
    Acts report.reply t

/-- Why a command does nothing, and how the user is told. -/
inductive Cause : Urgency → Text → Prop where
  | unknown (unbound : Commands.builtIn.get? name = none) :
    Cause .error ("unknown command: " ++ name)
  | rowless {binding : Binding} (bound : Commands.builtIn.get? name = some binding)
    (needsRow : binding.needsRow) (rowless : row = none) : Cause .warning (name ++ " needs a line")
  | treeless {binding : Binding} (bound : Commands.builtIn.get? name = some binding)
    (treeless : s.registry.get? kind = none) :
    Cause .warning s!"no {kind.text} tree is open"
  /-- No node is on the row, and the row is none of the buffer of the tree. -/
  | absent {binding : Binding} {id : TreeId} {line : Int}
    (bound : Commands.builtIn.get? name = some binding) (needsRow : binding.needsRow)
    (recent : s.registry.get? kind = some id) (isRow : row = some line)
    (absent : s.nodeAt? id line = none)
    (beyond : ∀ buffer, s.buffers.get? (s.tree id).handle = some buffer →
      line < 1 ∨ buffer.lines.length < line) : Cause .warning (Missing.row line).message
  /-- What the command is for is refused. -/
  | refused {binding : Binding} {id : TreeId} {event : Event} {reason : Refusal}
    (bound : Commands.builtIn.get? name = some binding) (recent : s.registry.get? kind = some id)
    (isFor : s.commandEvent? id row binding.command = some event)
    (refused : event.act s = .error (.refused reason) s) : Cause .warning reason.message

/-- One notification says why the command does nothing, and nothing else changes. -/
inductive Explains : Reply → Session → Prop where
  | told {urgency : Urgency} {message : Text} (cause : Cause s kind name row urgency message) :
    Explains .nothing { s with journal := s.journal.notify urgency message }

/-- The faults that a command does not explain. -/
inductive Escapes : Fault → Session → Prop where
  /-- No node is on the row, and the number of the row has too many digits to be told. -/
  | row {binding : Binding} {id : TreeId} {line : Int}
    (bound : Commands.builtIn.get? name = some binding) (needsRow : binding.needsRow)
    (recent : s.registry.get? kind = some id) (isRow : row = some line)
    (absent : s.nodeAt? id line = none) (long : Text.Integer.TooLong line) :
    Escapes (.malformed .tooLong) s
  /-- The details of a node are asked for, and the number of its line has too many digits. -/
  | line {binding : Binding} {id : TreeId} {ref : NodeRef}
    (bound : Commands.builtIn.get? name = some binding) (recent : s.registry.get? kind = some id)
    (isFor : s.commandEvent? id row binding.command = some (.details id ref))
    (unspeakable : s.Unspeakable id ref) : Escapes (.malformed .tooLong) s
  /-- The deadline of the request that is due cannot be told. -/
  | deadline {binding : Binding} {id : TreeId} {event : Event} {request : Request}
    {reason : Malformed} (bound : Commands.builtIn.get? name = some binding)
    (recent : s.registry.get? kind = some id)
    (isFor : s.commandEvent? id row binding.command = some event) (isDue : Due s event request)
    (late : s.now.add s.settings.timeout = .error reason) :
    Escapes (.malformed reason) (s.step event)

end Answers

/-- A built-in command of a name is run, for the kind of trees that is given or else the one that
the commands are for. -/
def runBuiltIn (active : TreeKind) (name : Text) (row : Option Int) (kind : Option TreeKind) :
    SessionM Reply :=
  run ⟨Commands.builtIn, active⟩ name row (kind.map fun k => (k.text : Text))

/-- What comes of a command: it acts, or it explains, or a fault escapes. -/
inductive Responds (s : Session) (active : TreeKind) (name : Text) (row : Option Int)
    (kind : Option TreeKind) : Prop where
  | acts {reply : Reply} {t : Session} (run : runBuiltIn active name row kind s = .ok reply t)
    (acts : Acts s (kind.getD active) name row reply t)
    (notBoth : ¬Explains s (kind.getD active) name row reply t)
  | explains {reply : Reply} {t : Session} (run : runBuiltIn active name row kind s = .ok reply t)
    (explains : Explains s (kind.getD active) name row reply t)
    (notBoth : ¬Acts s (kind.getD active) name row reply t)
  | escapes {e : Fault} {t : Session} (run : runBuiltIn active name row kind s = .error e t)
    (escapes : Escapes s (kind.getD active) name row e t)

/-- How a session obeys a command. -/
structure Obeys (s : Session) (active : TreeKind) (name : Text) (row : Option Int)
    (kind : Option TreeKind) : Prop where
  responds : Responds s active name row kind
  /-- Faults escape wherever they are said to. -/
  escapes : ∀ e t, Escapes s (kind.getD active) name row e t →
    runBuiltIn active name row kind s = .error e t
  /-- On a row of the buffer of the tree nothing is ever found missing. -/
  found : ∀ binding id buffer line, Commands.builtIn.get? name = some binding →
    s.registry.get? (kind.getD active) = some id →
      s.buffers.get? (s.tree id).handle = some buffer → row = some line → 1 ≤ line →
        line ≤ buffer.lines.length → ∀ what t,
          carryOut binding.command id row s ≠ .error (.missing what) t

section Obeys

variable {active : TreeKind} {kind : Option TreeKind} {k : TreeKind} {reply : Reply}

theorem Acts.notes (h : Acts s k name row reply t) : t.journal.notes = s.journal.notes := by
  cases h
  assumption

theorem Explains.notes (h : Explains s k name row reply t) :
    ∃ note, t.journal.notes = s.journal.notes ++ [note] := by
  cases h
  exact ⟨_, rfl⟩

/-- A command that acts does not explain. -/
theorem Acts.not_explains (h : Acts s k name row reply t) : ¬Explains s k name row reply t := by
  intro he
  obtain ⟨note, hnotes⟩ := he.notes
  simp [h.notes] at hnotes

/-- One notification is told, and nothing else is done. -/
theorem responds_explains {urgency : Urgency} {message : Text}
    (hrun : runBuiltIn active name row kind s =
      .ok .nothing { s with journal := s.journal.notify urgency message })
    (cause : Cause s (kind.getD active) name row urgency message) :
    Responds s active name row kind :=
  .explains hrun (.told cause) fun ha => ha.not_explains (.told cause)

theorem kindFor_text (commands : Commands) (kind : Option TreeKind) :
    kindFor commands (kind.map fun k => (k.text : Text)) = .ok (kind.getD commands.kind) := by
  cases kind with
  | none => rfl
  | some k => cases k <;> rfl

/-- A command that has the row that it needs is tried on the most recent tree. -/
theorem runBuiltIn_of_recent (hb : Commands.builtIn.get? name = some binding)
    (hrow : (binding.needsRow && row.isNone) = false)
    (hid : s.registry.get? (kind.getD active) = some id) :
    runBuiltIn active name row kind s = relay (carryOut binding.command id row) s := by
  have hrun : runBuiltIn active name row kind s = _ := run_of_bound hb hrow (kindFor_text _ kind)
  rw [hid] at hrun
  exact hrun

theorem isOpen_of_recent (h : s.Sound) (hid : s.registry.get? k = some id) : s.isOpen id := by
  obtain ⟨handle, -, hslot⟩ := Option.bind_eq_some_iff.1 hid
  exact h.registry.isOpen_of_slot hslot

/-- What a command is tried on: a tree that is open and can be drawn. -/
theorem drawable_of_recent (h : s.Sound) (hl : ∀ id, s.registry.get? k = some id →
    (s.tree id).Legible) (hid : s.registry.get? k = some id) : s.Drawable id :=
  ⟨isOpen_of_recent h hid, hl id hid⟩

theorem Drawn.member_of_nodeOn? (hd : s.Drawn ∅) (hon : s.nodeOn? id row = some ref) :
    s.Member id ref := by
  obtain ⟨line, -, hat⟩ := Option.bind_eq_some_iff.1 hon
  exact hd.member_of_nodeAt? hat

/-- A command that is for nothing on its row says so, unless the number of the row is too long. -/
theorem responds_absent (h : s.Sound) (hd : s.Drawn ∅)
    (hbound : Commands.builtIn.get? name = some binding)
    (hrow : (binding.needsRow && row.isNone) = false)
    (hid : s.registry.get? (kind.getD active) = some id)
    (hneeds : binding.needsRow) (hon : s.nodeOn? id row = none) :
    Responds s active name row kind := by
  have ho := isOpen_of_recent h hid
  have hrun : runBuiltIn active name row kind s = excuse (Missing.row row).fault s :=
    (runBuiltIn_of_recent hbound hrow hid).trans
      (relay_error (carryOut_of_absent ho hbound hneeds hon))
  cases row with
  | none =>
    rw [hneeds] at hrow
    cases hrow
  | some line =>
    by_cases hlong : Text.Integer.TooLong line
    · rw [Missing.fault_of_tooLong rfl hlong] at hrun
      exact .escapes hrun (.row hbound hneeds hid rfl hon hlong)
    · rw [Missing.fault_of_not_tooLong rfl hlong] at hrun
      refine responds_explains hrun (.absent hbound hneeds hid rfl hon fun buffer hbuffer => ?_)
      by_contra hwithin
      obtain ⟨ref, hat⟩ := hd.nodeAt?_of_buffer ho hbuffer (by omega) (by omega : line ≤ _)
      cases hat.symm.trans hon

/-- A command that is for an event ends as the event does. -/
theorem runBuiltIn_of_event (h : s.Sound) (hbound : Commands.builtIn.get? name = some binding)
    (hrow : (binding.needsRow && row.isNone) = false)
    (hid : s.registry.get? (kind.getD active) = some id)
    (he : s.commandEvent? id row binding.command = some event) :
    runBuiltIn active name row kind s = match event.act s with
      | .ok report t => .ok report.reply t
      | .error e t => excuse e t := by
  have hcarry := carryOut_of_event? (isOpen_of_recent h hid) he
  rw [map_eq_pure_bind] at hcarry
  rw [runBuiltIn_of_recent hbound hrow hid]
  cases hact : event.act s with
  | ok report t => exact relay_ok (hcarry.trans (Action.bind_of_ok hact))
  | error e t => exact relay_error (hcarry.trans (Action.bind_of_error hact))

/-- A row is there for every command that is for something. -/
theorem hasRow_of_event (hbound : Commands.builtIn.get? name = some binding)
    (he : s.commandEvent? id row binding.command = some event) :
    (binding.needsRow && row.isNone) = false := by
  by_contra hrow
  obtain ⟨hneeds, hnone⟩ := Bool.and_eq_true_iff.1 (Bool.eq_true_of_not_eq_false hrow)
  have hon : s.nodeOn? id row = none := by
    rw [Option.isNone_iff_eq_none.1 hnone]
    rfl
  cases he.symm.trans ((commandEvent?_eq_none_iff hbound).2 ⟨hneeds, hon⟩)

section Drawn

variable (h : s.Sound) (hd : s.Drawn ∅) (hb : ∀ request, ¬s.client.Baffled request)
  (hl : ∀ id, s.registry.get? (kind.getD active) = some id → (s.tree id).Legible)
include h hd hb hl

/-- What a command does for an event. -/
theorem succeeds_of_recent (hid : s.registry.get? (kind.getD active) = some id)
    (he : s.commandEvent? id row command = some event) :
    event.act.Ends s (fun _ t => s.Succeeds id event t) (s.Miscarries id event) :=
  succeeds_event h hb (drawable_of_recent h hl hid) (fun _ hon => hd.member_of_nodeOn? hon) he

theorem responds_event (hbound : Commands.builtIn.get? name = some binding)
    (hid : s.registry.get? (kind.getD active) = some id)
    (he : s.commandEvent? id row binding.command = some event) :
    Responds s active name row kind := by
  have hrun := runBuiltIn_of_event h hbound (hasRow_of_event hbound he) hid he
  have hends := succeeds_of_recent h hd hb hl hid he
  unfold Action.Ends at hends
  cases hact : event.act s with
  | ok report t =>
    rw [hact] at hrun hends
    have hacts := Acts.done hbound hid he hact hends.fares.notes
    exact .acts hrun hacts hacts.not_explains
  | error e t =>
    rw [hact] at hrun hends
    have hstep : s.step event = t := by rw [step, Action.after, hact]
    cases hends with
    | fails hfails =>
      cases hfails with
      | refused timely => exact responds_explains hrun (.refused hbound hid he hact)
      | delayed delays =>
        cases delays with
        | late isDue late =>
          rw [← hstep] at hrun
          exact .escapes hrun (.deadline hbound hid he isDue late)
    | untold isDetails unspeakable =>
      exact .escapes hrun (.line hbound hid (isDetails ▸ he) unspeakable)

theorem responds_of_drawn : Responds s active name row kind := by
  cases hbound : Commands.builtIn.get? name with
  | none => exact responds_explains (run_of_unbound hbound) (.unknown hbound)
  | some binding =>
    cases hrow : binding.needsRow && row.isNone with
    | true =>
      obtain ⟨hneeds, hnone⟩ := Bool.and_eq_true_iff.1 hrow
      exact responds_explains (run_of_rowless hbound hrow)
        (.rowless hbound hneeds (Option.isNone_iff_eq_none.1 hnone))
    | false =>
      cases hid : s.registry.get? (kind.getD active) with
      | none =>
        have hrun : runBuiltIn active name row kind s = _ :=
          run_of_bound hbound hrow (kindFor_text _ kind)
        rw [hid] at hrun
        exact responds_explains hrun (.treeless hbound hid)
      | some id =>
        cases he : s.commandEvent? id row binding.command with
        | some event => exact responds_event h hd hb hl hbound hid he
        | none =>
          obtain ⟨hneeds, hon⟩ := (commandEvent?_eq_none_iff hbound).1 he
          exact responds_absent h hd hbound hrow hid hneeds hon

theorem escapes_of_drawn {e : Fault} (he : Escapes s (kind.getD active) name row e t) :
    runBuiltIn active name row kind s = .error e t := by
  cases he with
  | @row binding id line bound needsRow recent isRow absent long =>
    subst isRow
    have hcarry : carryOut binding.command id (some line) s = .error (Missing.row line).fault s :=
      carryOut_of_absent (isOpen_of_recent h recent) bound needsRow absent
    rw [Missing.fault_of_tooLong rfl long] at hcarry
    exact (runBuiltIn_of_recent bound (Bool.and_false _) recent).trans (relay_error hcarry)
  | line bound recent isFor unspeakable =>
    rw [runBuiltIn_of_event h bound (hasRow_of_event bound isFor) recent isFor]
    have hends := succeeds_of_recent h hd hb hl recent isFor
    unfold Action.Ends at hends
    split at hends
    · exact absurd unspeakable (hends.speakable _ rfl)
    · rename_i hact
      rw [hact]
      cases hends with
      | fails hfails speakable => exact absurd rfl (speakable _)
      | untold => rfl
  | deadline bound recent isFor isDue late =>
    rw [runBuiltIn_of_event h bound (hasRow_of_event bound isFor) recent isFor, step, Action.after]
    have hends := succeeds_of_recent h hd hb hl recent isFor
    unfold Action.Ends at hends
    -- What is due comes too late, so that it was neither done nor refused before it was sent.
    have hbelated : s.Belated (Due s _) := ⟨⟨_, isDue⟩, _, late⟩
    split at hends
    · exact absurd hbelated hends.fares.timely
    · rename_i hact
      rw [hact]
      cases hends with
      | fails hfails =>
        cases hfails with
        | refused timely => exact absurd hbelated timely
        | delayed delays =>
          cases delays with
          | late isDue' late' =>
            obtain rfl := Except.error.inj (late.symm.trans late')
            rfl
      | untold isDetails =>
        subst isDetails
        cases isDue

theorem found_of_drawn {buffer : Buffer} (hbound : Commands.builtIn.get? name = some binding)
    (hid : s.registry.get? (kind.getD active) = some id)
    (hbuffer : s.buffers.get? (s.tree id).handle = some buffer) (hpos : 1 ≤ line)
    (hlast : line ≤ buffer.lines.length) (what : Missing) (t : Session) :
    carryOut binding.command id (some line) s ≠ .error (.missing what) t := by
  have ho := isOpen_of_recent h hid
  obtain ⟨ref, hat⟩ := hd.nodeAt?_of_buffer ho hbuffer hpos hlast
  cases he : s.commandEvent? id (some line) binding.command with
  | none =>
    obtain ⟨-, hon⟩ := (commandEvent?_eq_none_iff hbound).1 he
    cases hat.symm.trans hon
  | some event =>
    intro hmissing
    have hends := succeeds_of_recent h hd hb hl hid he
    have hcarry := carryOut_of_event? ho he
    rw [map_eq_pure_bind] at hcarry
    unfold Action.Ends at hends
    cases hact : event.act s with
    | ok report u => cases hmissing.symm.trans (hcarry.trans (Action.bind_of_ok hact))
    | error e u =>
      rw [hact] at hends
      have herror := hmissing.symm.trans (hcarry.trans (Action.bind_of_error hact))
      obtain ⟨rfl, -⟩ := EStateM.Result.error.inj herror
      cases hends with
      | fails hfails =>
        cases hfails with
        | delayed delays => cases delays

/-- **A command acts or explains** in every session whose trees are drawn, or else a fault escapes
that is known beforehand. -/
theorem obeys_of_drawn : Obeys s active name row kind := by
  refine ⟨responds_of_drawn h hd hb hl, fun e t => escapes_of_drawn h hd hb hl, ?_⟩
  rintro binding id buffer line hbound hid hbuffer rfl hpos hlast
  exact found_of_drawn h hd hb hl hbound hid hbuffer hpos hlast

end Drawn

end Obeys

/-! ### Runs with commands -/

/-- What is done with a session: something happens to it, or a command is run, be it built in or
not. -/
inductive Turn where
  | event (event : Event)
  | command (commands : Commands) (name : Text) (row : Option Int) (kind : Option Text)

def Turn.act : Turn → SessionM Unit
  | .event event => do let _ ← event.act
  | .command commands name row kind => do let _ ← run commands name row kind

/-- The session after one turn after the other. -/
def play (s : Session) (turns : List Turn) : Session :=
  turns.foldl (fun s turn => turn.act.after s) s

/-- The turn succeeds, or fails for what it was asked of. -/
def Turn.isProper (s : Session) (turn : Turn) : Bool :=
  match turn.act s with
  | .ok _ _ => true
  | .error e _ => e.isRejection

/-- No turn fails for anything but what it was asked of. -/
def isProperPlay : Session → List Turn → Bool
  | _, [] => true
  | s, turn :: rest => turn.isProper s && isProperPlay (turn.act.after s) rest

/-- A session of a client, all of whose open trees are drawn as they are. -/
structure Poised (client : Client) (s : Session) : Prop where
  steady : s.Steady
  drawn : s.Drawn ∅
  client : s.client = client

namespace Poised

variable {client : Client}

theorem log (h : s.Poised client) (journal : Journal) :
    ({ s with journal := journal } : Session).Poised client :=
  ⟨h.steady.log journal, h.drawn.log journal, h.client⟩

/-- After an event that succeeds the session is poised, and what is refused is not begun. -/
theorem ends_event (h : s.Poised client) (event : Event) :
    event.act.Ends s (fun _ t => t.Poised client) s.Untouched := by
  have hends := draws_event h.steady h.drawn event
  have hsteady : (s.step event).Steady := h.steady.steps [event]
  have hclient : (s.step event).client = s.client := by
    rcases h.steady.sound.step_cases event with hm | ⟨_, _, _, -, -, -, he⟩ | ⟨_, -, he⟩
    · exact hm.minds.1
    · rw [he]
      rfl
    · rw [he]
      rfl
  unfold Session.step Action.after at hsteady hclient
  unfold Action.Ends at hends ⊢
  cases hact : event.act s with
  | ok report t =>
    rw [hact] at hends hsteady hclient
    exact ⟨hsteady, hends, hclient.trans h.client⟩
  | error e t =>
    rw [hact] at hends
    exact hends

theorem ends_carryOut (h : s.Poised client) (ho : s.isOpen id) (command : Command)
    (row : Option Int) :
    (carryOut command id row).Ends s (fun _ t => t.Poised client) s.Untouched := by
  cases he : s.commandEvent? id row command with
  | some event =>
    have hends : (Report.reply <$> event.act).Ends s (fun _ t => t.Poised client) s.Untouched := by
      rw [map_eq_pure_bind]
      exact .bind ((h.ends_event event).mono (fun _ _ ht => .pure ht) fun _ _ hf => hf)
    unfold Action.Ends at hends ⊢
    rw [carryOut_of_event? ho he]
    exact hends
  | none =>
    -- There is no node on the row, and that is found before anything is done.
    have onNone {x : NodeRef → SessionM Reply} {make : NodeRef → Event}
        (hmake : (s.nodeOn? id row).map make = none) :
        (nodeOnRow id row >>= x).Ends s (fun _ t => t.Poised client) s.Untouched := by
      have hnode := nodeOnRow_of_none ho (Option.map_eq_none_iff.1 hmake)
      unfold Action.Ends
      rw [Action.bind_of_error hnode]
      exact fun _ => rfl
    cases command with
    | expand => exact onNone he
    | collapse => exact onNone he
    | toggle => exact onNone he
    | focus => exact onNone he
    | jump => exact onNone he
    | details => exact onNone he
    | report => exact .pure h
    | refuse text => exact .throw fun _ => rfl
    | _ => cases he

/-- What is told of a command that was tried leaves the session poised. -/
theorem ends_relay {x : SessionM Reply} (h : s.Poised client)
    (hx : x.Ends s (fun _ t => t.Poised client) s.Untouched) :
    (relay x).Ends s (fun _ t => t.Poised client) Firm := by
  unfold Action.Ends at hx ⊢
  cases hact : x s with
  | ok reply t =>
    rw [hact] at hx
    rw [relay_ok hact]
    exact hx
  | error e t =>
    rw [hact] at hx
    rw [relay_error hact]
    cases e with
    | refused reason =>
      obtain rfl : t = s := hx rfl
      exact h.log _
    | missing what =>
      obtain rfl : t = s := hx rfl
      exact h.log _
    | _ => exact rfl

theorem ends_run (h : s.Poised client) (commands : Commands) (name : Text) (row : Option Int)
    (kind : Option Text) :
    (run commands name row kind).Ends s (fun _ t => t.Poised client) Firm := by
  cases hb : commands.bindings.get? name with
  | none =>
    unfold Action.Ends
    rw [run_of_unbound hb]
    exact h.log _
  | some binding =>
    cases hrow : binding.needsRow && row.isNone with
    | true =>
      unfold Action.Ends
      rw [run_of_rowless hb hrow]
      exact h.log _
    | false =>
      cases hk : kindFor commands kind with
      | error e =>
        obtain ⟨hrun, hfirm⟩ := run_of_unknownKind (s := s) hb hrow hk
        unfold Action.Ends
        rw [hrun]
        exact hfirm
      | ok k =>
        have hrun := run_of_bound (s := s) hb hrow hk
        unfold Action.Ends
        rw [hrun]
        cases hid : s.registry.get? k with
        | none => exact h.log _
        | some id =>
          exact h.ends_relay (h.ends_carryOut (isOpen_of_recent h.steady.sound hid) _ _)

theorem turn (h : s.Poised client) {turn : Turn} (hp : turn.isProper s) :
    (turn.act.after s).Poised client := by
  have hends : turn.act.Ends s (fun _ t => t.Poised client) s.Untouched := by
    cases turn with
    | event event =>
      exact .bind ((h.ends_event event).mono (fun _ _ ht => .pure ht) fun _ _ hf => hf)
    | command commands name row kind =>
      exact .bind ((h.ends_run commands name row kind).mono (fun _ _ ht => .pure ht)
        fun _ _ hf => hf.untouched)
  unfold Turn.isProper at hp
  unfold Action.Ends at hends
  unfold Action.after
  cases hact : turn.act s with
  | ok a t =>
    rw [hact] at hends
    exact hends
  | error e t =>
    rw [hact] at hends hp
    obtain rfl : t = s := hends hp
    exact h

theorem play (h : s.Poised client) {turns : List Turn} (hp : s.isProperPlay turns) :
    (s.play turns).Poised client := by
  -- The session varies, for the rest is played from where the first turn leads.
  induction turns generalizing s with
  | nil => exact h
  | cons first rest ih =>
    obtain ⟨hfirst, hrest⟩ := Bool.and_eq_true_iff.1 hp
    exact ih (h.turn hfirst) hrest

end Poised

/-- **Commands act or explain**, in every session that events and commands lead to of which none
failed for anything but what it was asked of. A fault escapes only where a number is to be told that
has too many digits, and where the deadline of a request cannot be told. -/
theorem obeys_play (client : Client) (settings : Settings) (root : Path) (now : Number)
    (turns : List Turn) (proper : (start client settings root now).isProperPlay turns)
    (answering : ∀ request, ¬client.Baffled request) (active : TreeKind) (name : Text)
    (row : Option Int) (kind : Option TreeKind)
    (legible : ∀ id,
      ((start client settings root now).play turns).registry.get? (kind.getD active) = some id →
        (((start client settings root now).play turns).tree id).Legible) :
    Obeys ((start client settings root now).play turns) active name row kind := by
  have hstart : (start client settings root now).Poised client :=
    ⟨.of_start .., drawn_start .., rfl⟩
  have h := hstart.play proper
  refine obeys_of_drawn h.steady.sound h.drawn ?_ legible
  rw [h.client]
  exact answering

/-- A function is shown whose name stands so far down in its file that the number of the line has
too many digits. -/
def farPlay : List Turn :=
  let far : Position := ⟨((10 ^ Text.Integer.maxDigits - 1 : Nat) : Int), 0⟩
  [.event (.openCalls ⟨"f", none, "file:///ws/app.py", ⟨⟨0, 0⟩, far⟩, ⟨far, far⟩, none, []⟩
    (.calls .incoming)), .command .default "details" (some 2) none]

theorem proper_farPlay : freshSession.isProperPlay farPlay := by decide +kernel

theorem legible_farPlay : ∀ id, (freshSession.play farPlay).registry.get? .calls = some id →
    ((freshSession.play farPlay).tree id).Legible := by
  intro id hid
  have hrecent : (freshSession.play farPlay).registry.get? .calls = some 0 := by decide +kernel
  obtain rfl : 0 = id := Option.some.inj (hrecent.symm.trans hid)
  have hleaf : ((freshSession.play farPlay).tree 0).root.isLeaf := by decide +kernel
  refine Node.all_leaf (List.isEmpty_iff.1 hleaf) fun uri huri => ?_
  have huris : ((freshSession.play farPlay).tree 0).root.uris
      ((freshSession.play farPlay).tree 0).uri = [("file:///ws/app.py" : Text)] := by
    decide +kernel
  rw [huris, List.mem_singleton] at huri
  subst huri
  exact ⟨⟨"file", "", "/ws/app.py"⟩, by decide +kernel⟩

/-- The function is on the first row, but its details are not told, and neither is why. -/
theorem escapes_farPlay : freshSession.isProperPlay farPlay ∧
    (freshSession.play farPlay).nodeAt? 0 1 = some ⟨0, 0, []⟩ ∧
      runBuiltIn .calls "details" (some 1) none (freshSession.play farPlay) =
        .error (.malformed .tooLong) (freshSession.play farPlay) := by
  have hstart : freshSession.Poised .server := ⟨.of_start .., drawn_start .., rfl⟩
  have h := hstart.play proper_farPlay
  have hanswers : ∀ request, ¬(freshSession.play farPlay).client.Baffled request := by
    rw [h.client]
    rintro request ⟨recording, reason, hclient, -⟩
    cases hclient
  have hrow : (freshSession.play farPlay).nodeAt? 0 1 = some ⟨0, 0, []⟩ := by decide +kernel
  have hrecent : (freshSession.play farPlay).registry.get? .calls = some 0 := by decide +kernel
  have hfor : (freshSession.play farPlay).commandEvent? 0 (some 1) .details =
      some (.details 0 ⟨0, 0, []⟩) := congrArg (Option.map (Event.details 0)) hrow
  have hlocation : ((freshSession.play farPlay).node ⟨0, 0, []⟩).payload.location?
      ((freshSession.play farPlay).tree 0).uri false = some ⟨"file:///ws/app.py",
        ⟨⟨((10 ^ Text.Integer.maxDigits - 1 : Nat) : Int), 0⟩,
          ⟨((10 ^ Text.Integer.maxDigits - 1 : Nat) : Int), 0⟩⟩⟩ := by decide +kernel
  have hlong : Text.Integer.TooLong (((10 ^ Text.Integer.maxDigits - 1 : Nat) : Int) + 1) := by
    unfold Text.Integer.TooLong
    omega
  have hunspeakable : (freshSession.play farPlay).Unspeakable 0 ⟨0, 0, []⟩ :=
    ⟨_, hlocation, hlong⟩
  have hbound : Commands.builtIn.get? "details" = some ⟨.details, true⟩ := by decide +kernel
  have hescapes : Escapes (freshSession.play farPlay) (Option.getD none .calls) "details" (some 1)
    (.malformed .tooLong) (freshSession.play farPlay) := .line hbound hrecent hfor hunspeakable
  have hlegible : ∀ id, (freshSession.play farPlay).registry.get? (Option.getD none .calls) =
    some id → ((freshSession.play farPlay).tree id).Legible := legible_farPlay
  exact ⟨proper_farPlay, hrow,
    escapes_of_drawn h.steady.sound h.drawn hanswers hlegible hescapes⟩

theorem obeys_farPlay : freshSession.isProperPlay farPlay ∧
    (∀ id, (freshSession.play farPlay).registry.get? .calls = some id →
      ((freshSession.play farPlay).tree id).Legible) ∧
    Obeys (freshSession.play farPlay) .calls "jump" (some 1) none := by
  refine ⟨proper_farPlay, legible_farPlay, obeys_play .server _ _ _ farPlay proper_farPlay ?_ .calls
    "jump" (some 1) none legible_farPlay⟩
  rintro request ⟨recording, reason, hclient, -⟩
  cases hclient

end Session

end SymbolTrees
