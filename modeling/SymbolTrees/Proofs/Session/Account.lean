import SymbolTrees.Proofs.Session.Absorb
import SymbolTrees.Proofs.Session.Occurs

/-!
# Accounts

What is left when arrivals have had their effects and requests were ended: of the trees, of the
requests, and of what was reported. Every request that is over was reported once, or nobody waited
for it.
-/

namespace SymbolTrees.Session

open SymbolTrees.Server (Outcome)

variable {s t u : Session} {inquiry : Inquiry} {results more : List Resolution}
  {R : Session → List Resolution → Session → Prop}

/-! ### Lookups that are sent -/

/-- The fields that neither effects nor deadlines change. -/
structure Frame (s t : Session) : Prop where
  settings : t.settings = s.settings
  style : t.style = s.style
  client : t.client = s.client
  now : t.now = s.now
  buffers : t.buffers = s.buffers
  notes : t.journal.notes = s.journal.notes

namespace Frame

theorem refl (s : Session) : Frame s s := ⟨rfl, rfl, rfl, rfl, rfl, rfl⟩

theorem trans (h : Frame s t) (h' : Frame t u) : Frame s u :=
  ⟨h'.settings.trans h.settings, h'.style.trans h.style, h'.client.trans h.client,
    h'.now.trans h.now, h'.buffers.trans h.buffers, h'.notes.trans h.notes⟩

end Frame

theorem frame_seeking (calls : List Call) (index : Nat) :
    Frame s (s.seeking inquiry calls index) := by
  induction calls generalizing s inquiry index with
  | nil => exact .refl s
  | cons call rest ih =>
    refine Frame.trans ?_ (ih (index + 1))
    exact ⟨rfl, rfl, rfl, rfl, rfl, rfl⟩

theorem registry_seeking (calls : List Call) (index : Nat) :
    (s.seeking inquiry calls index).registry = s.registry := by
  induction calls generalizing s inquiry index with
  | nil => rfl
  | cons call rest ih => exact ih _

/-- Numbers in ascending order. -/
def numbers (first : Token) : Nat → List Token
  | 0 => []
  | n + 1 => first :: numbers (first + 1) n

theorem add_succ_number (first : Token) (j : Nat) :
    first + ((j + 1 : Nat) : Int) = first + 1 + (j : Int) := by
  have hint (a : Int) : a + ((j + 1 : Nat) : Int) = a + 1 + (j : Int) := by omega
  exact hint first

/-- What is looked up stays. -/
theorem get?_lookups_seeking_of_lt (inquiry : Inquiry) (calls : List Call) (index : Nat) {l : Token}
    (hl : l < s.nextToken) : (s.seeking inquiry calls index).lookups.get? l = s.lookups.get? l := by
  induction calls generalizing s inquiry index with
  | nil => rfl
  | cons call rest ih =>
    rw [seeking, ih _ (index + 1) (Int.lt_trans hl (Int.lt_succ _))]
    exact (Table.get?_put ..).trans (if_neg (Int.ne_of_gt hl))

/-- The lookups have the next numbers, one after the other. -/
theorem get?_lookups_seeking (inquiry : Inquiry) {calls : List Call} (index : Nat) {j : Nat}
    (hj : j < calls.length) : (s.seeking inquiry calls index).lookups.get? (s.nextToken + (j : Int)) =
      some (inquiry.token, index + j) := by
  induction calls generalizing s inquiry index j with
  | nil => cases hj
  | cons call rest ih =>
    rw [seeking]
    cases j with
    | zero =>
      have hzero : s.nextToken + ((0 : Nat) : Int) = s.nextToken := Int.add_zero _
      rw [hzero, get?_lookups_seeking_of_lt _ _ _ (Int.lt_succ _)]
      exact Table.get?_put_self ..
    | succ j =>
      have hnext := ih (s := (s.looking inquiry.token inquiry index).posted s.nextToken true
        (.workspaceSymbols call.item.name))
        { inquiry with lookups := inquiry.lookups ++ [s.nextToken] } (index + 1)
        (Nat.lt_of_succ_lt_succ hj)
      rw [add_succ_number, Nat.add_comm j 1, ← Nat.add_assoc]
      exact hnext

/-- Only the request whose calls are looked up is changed: it has the new lookups on its list. -/
theorem get?_pending_seeking (inquiry : Inquiry) (calls : List Call) (index : Nat)
    (hi : s.pending.get? inquiry.token = some inquiry) (k : Token) :
    (s.seeking inquiry calls index).pending.get? k =
      if inquiry.token = k then
        some { inquiry with lookups := inquiry.lookups ++ numbers s.nextToken calls.length }
      else s.pending.get? k := by
  induction calls generalizing s inquiry index with
  | nil =>
    split
    · rename_i he
      simp [seeking, numbers, ← he, hi]
    · rfl
  | cons call rest ih =>
    rw [seeking, ih _ (index + 1) (Table.get?_put_self ..)]
    split
    · simp [numbers, posted, looking]
    · rename_i hne
      exact (Table.get?_put ..).trans (if_neg hne)

/-! ### Trees -/

/-- What becomes of the trees: nothing, or one node does not wait any more, or it got the nodes
that are reported. -/
inductive Alters (s : Session) : List Resolution → Session → Prop where
  | same {results : List Resolution} {t : Session} (registry : t.registry = s.registry)
    (bare : ∀ r ∈ results, ∀ nodes, r.result ≠ .children nodes) : Alters s results t
  | released {results : List Resolution} {t : Session} {id : TreeId} {ref : NodeRef}
    (member : s.Member id ref) (registry : t.registry = (s.released ref).registry)
    (bare : ∀ r ∈ results, ∀ nodes, r.result ≠ .children nodes) : Alters s results t
  | grown {t : Session} {token : Token} {id : TreeId} {ref : NodeRef} {generation : Nat}
    {direction : CallDirection} {nodes : List Node} (member : s.Member id ref)
    (waits : (s.node ref).pending = some token)
    (registry : t.registry = s.registry.updateNode ref fun node =>
      { node with children := nodes, expanded := true, pending := none }) :
    Alters s [⟨token, .expand id ref generation direction, .children nodes⟩] t

theorem Passes.ne_children {purpose : Purpose} {value : Json} {result : Result}
    (h : Passes purpose value result) (nodes : List Node) : result ≠ .children nodes := by
  cases h <;> simp

theorem alters_failed (h : s.Sound) (hi : s.pending.get? inquiry.token = some inquiry)
    (hl : s.isLive inquiry) (reason : Failure) (ht : t.registry = (s.failed inquiry).registry) :
    Alters s (report inquiry (.failure reason)) t := by
  have hbare : ∀ r ∈ report inquiry (.failure reason), ∀ nodes, r.result ≠ .children nodes := by
    simp [report]
  cases hp : inquiry.purpose with
  | expand id ref generation direction =>
    refine .released (h.live hi hp hl).1 (ht.trans ?_) hbare
    rw [failed, hp]
    rfl
  | _ =>
    refine .same (ht.trans ?_) hbare
    rw [failed, hp]
    rfl

theorem alters_grafted (h : s.Sound) {old : Inquiry} {id : TreeId} {ref : NodeRef}
    {generation : Nat} {direction : CallDirection} (hi : s.pending.get? old.token = some old)
    (hp : old.purpose = .expand id ref generation direction) (hl : s.isLive old)
    (ht : t.registry = (s.grafted inquiry ref).registry) :
    Alters s (report old (.children (s.childrenOf inquiry ref))) t := by
  obtain ⟨hm, hw, -⟩ := h.live hi hp hl
  rw [report, hp]
  exact .grown hm hw ht

theorem Effect.alters (h : s.Sound) (he : Effect s results t) : Alters s results t := by
  cases he with
  | refuse arrivals pending live =>
    obtain rfl := (h.waiting.own _ _ pending).1
    refine alters_failed h pending live _ ?_
    unfold failed
    split <;> rfl
  | pass arrivals pending passes =>
    refine .same rfl fun r hr nodes => ?_
    rw [List.mem_singleton.1 hr]
    exact passes.ne_children nodes
  | adopt arrivals pending purpose live =>
    obtain rfl := (h.waiting.own _ _ pending).1
    exact alters_grafted h pending purpose live rfl
  | seek => exact .same (registry_seeking ..) (by simp)
  | finish arrivals lookup pending tells last purpose live =>
    exact alters_grafted h pending purpose live rfl
  | _ => exact .same rfl (by simp)

theorem Expiry.alters (h : s.Sound) (he : Expiry s results t) : Alters s results t := by
  cases he with
  | adopt pending late looking purpose live => exact alters_grafted h pending purpose live rfl
  | lapse => exact .same rfl (by simp)
  | timeOut pending late idle live => exact alters_failed h pending live _ rfl

theorem Alters.isOpen (ha : Alters s results t) (id : TreeId) : t.isOpen id = s.isOpen id := by
  unfold Session.isOpen
  cases ha with
  | same registry => rw [registry]
  | released member registry =>
    rw [registry]
    exact Registry.isOpen_updateNode
  | grown member waits registry =>
    rw [registry]
    exact Registry.isOpen_updateNode

theorem Alters.generation (h : s.Sound) (ha : Alters s results t) (id : TreeId) :
    (t.tree id).generation = (s.tree id).generation := by
  unfold Session.tree
  cases ha with
  | same registry => rw [registry]
  | released member registry =>
    rw [registry]
    exact Registry.generation_updateNode (h.stands member).current
  | grown member waits registry =>
    rw [registry]
    exact Registry.generation_updateNode (h.stands member).current

/-- Where a node changes, all nodes stay where they are, and the others keep what they are. -/
theorem Sound.node_updateNode (h : s.Sound) {id other : TreeId} {ref target : NodeRef}
    {f : Node → Node} (hm : s.Member id target) (hf : (s.node target).Becomes (f (s.node target)))
    (ht : t.registry = s.registry.updateNode target f) (ho : s.Member other ref) :
    t.Member other ref ∧ (ref ≠ target ∧ (s.node ref).Resembles (t.node ref) ∨
      ref.tree = target.tree ∧ s.node ref = s.node target ∧ t.node ref = f (s.node target)) := by
  have hs := h.stands hm
  have hr := h.stands ho
  have hopen : t.isOpen other := by
    rw [Session.isOpen, ht, Registry.isOpen_updateNode]
    exact ho.isOpen
  have hnode : (s.tree ref.tree).node? ref.place = some (s.node ref) :=
    (Tree.node?_of_isCurrent hr.current).trans hr.found
  have hthe {m : Node} (hm : (s.tree target.tree).root.at? target.place.path = some m) :
      m = s.node target := Option.some.inj (hm.symm.trans hs.found)
  obtain ⟨hcurrent, y, hy, hmark⟩ : (t.tree ref.tree).IsCurrent ref.place ∧
      ∃ y, (t.tree ref.tree).node? ref.place = some y ∧ (ref ≠ target ∧ (s.node ref).Resembles y ∨
        ref.tree = target.tree ∧ s.node ref = s.node target ∧ y = f (s.node target)) := by
    unfold Session.tree
    rw [ht]
    by_cases hid : ref.tree = target.tree
    · have hself : (s.registry.updateNode target f).tree ref.tree =
          (s.tree ref.tree).modify target.place f := by
        rw [hid]
        exact Registry.tree_updateNode_self hs.planted
      have hc : (s.tree ref.tree).IsCurrent target.place := hid ▸ hs.current
      rw [hself]
      refine ⟨hr.current.imp_right fun hg => hg.trans (Tree.generation_modify hc).symm, ?_⟩
      by_cases hsame : target.place.Same ref.place
      · rw [Tree.node?_modify_same hc hsame, hnode]
        have he : s.node ref = s.node target := by
          apply hthe
          rw [hsame.1, ← hid]
          exact hr.found
        exact ⟨_, rfl, .inr ⟨hid, he, congrArg f he⟩⟩
      · obtain ⟨y, hy, hres⟩ := Tree.node?_modify_of_not_same hc
          (fun m hm => hthe (hid ▸ hm) ▸ hf) hsame hnode
        exact ⟨y, hy, .inl ⟨fun he => hsame (he ▸ ⟨rfl, .inr rfl⟩), hres⟩⟩
    · have he : (s.registry.updateNode target f).tree ref.tree = s.tree ref.tree :=
        Registry.tree_update_of_ne hid
      rw [he]
      exact ⟨hr.current, _, hnode, .inl ⟨fun he => hid (congrArg NodeRef.tree he), .refl _⟩⟩
  obtain rfl : t.node ref = y := Tree.node_of_node? hy
  refine ⟨⟨hopen, ho.tree, ?_⟩, hmark⟩
  obtain rfl := ho.tree
  rw [Tree.node?_of_isCurrent hcurrent] at hy
  exact Tree.contains_iff.2 ⟨hcurrent, _, hy⟩

/-- A node that changes its children stays where it is, and so do all others. -/
theorem Sound.member_updateNode (h : s.Sound) {id other : TreeId} {ref target : NodeRef}
    {f : Node → Node} (hm : s.Member id target) (hf : (s.node target).Becomes (f (s.node target)))
    (ht : t.registry = s.registry.updateNode target f) (ho : s.Member other ref) :
    t.Member other ref ∧ (t.node ref).mark = (s.node ref).mark := by
  obtain ⟨hmember, ⟨-, hres⟩ | ⟨-, he, hnew⟩⟩ := h.node_updateNode hm hf ht ho
  · exact ⟨hmember, hres.mark⟩
  · exact ⟨hmember, by rw [hnew, he, hf.mark]⟩

theorem Alters.member (h : s.Sound) (ha : Alters s results t) {id : TreeId} {ref : NodeRef}
    (hm : s.Member id ref) : t.Member id ref ∧ (t.node ref).mark = (s.node ref).mark := by
  cases ha with
  | same registry =>
    have hn : t.node ref = s.node ref := congrArg (Registry.node · ref) registry
    have htree : t.tree id = s.tree id := congrArg (Registry.tree · id) registry
    refine ⟨⟨?_, hm.tree, htree ▸ hm.contains⟩, congrArg Node.mark hn⟩
    rw [Session.isOpen, registry]
    exact hm.isOpen
  | released member registry =>
    exact h.member_updateNode member (f := fun node => { node with pending := none })
      ⟨rfl, .inl rfl⟩ registry hm
  | grown member waits registry =>
    have hfits := h.fits (member.occurs h)
    exact h.member_updateNode member ⟨rfl, .inr (hfits.waiting (by rw [waits]; simp)).2.1⟩ registry
      hm

theorem frame_failed : Frame s (s.failed inquiry) := by
  unfold failed
  split <;> exact ⟨rfl, rfl, rfl, rfl, rfl, rfl⟩

theorem Effect.frame (he : Effect s results t) : Frame s t := by
  cases he with
  | @refuse token outcome rest =>
    exact Frame.trans (t := s.taken rest) ⟨rfl, rfl, rfl, rfl, rfl, rfl⟩ frame_failed
  | seek =>
    refine Frame.trans ?_ (frame_seeking _ 0)
    exact ⟨rfl, rfl, rfl, rfl, rfl, rfl⟩
  | _ => exact ⟨rfl, rfl, rfl, rfl, rfl, rfl⟩

theorem Expiry.frame (he : Expiry s results t) : Frame s t := by
  cases he with
  | timeOut => exact frame_failed
  | _ => exact ⟨rfl, rfl, rfl, rfl, rfl, rfl⟩

/-! ### Requests -/

/-- What is left of the requests: none is new, what is over was reported once if anybody waited for
it, and nothing else was reported. -/
structure Accounts (s : Session) (results : List Resolution) (t : Session) : Prop where
  distinct : (results.map Resolution.token).Nodup
  known : ∀ r ∈ results, ∃ old, s.pending.get? r.token = some old ∧ r.purpose = old.purpose ∧
    t.pending.get? r.token = none
  kept : ∀ k new, t.pending.get? k = some new → ∃ old, s.pending.get? k = some old ∧
    new.purpose = old.purpose ∧ s.isLive old = t.isLive new
  finished : ∀ k old, s.pending.get? k = some old → t.pending.get? k = none →
    (∃ r ∈ results, r.token = k) ∨ s.isLive old = false

namespace Accounts

theorem refl (s : Session) : Accounts s [] s :=
  ⟨List.nodup_nil, fun _ hr => (by cases hr), fun _ new hi => ⟨new, hi, rfl, rfl⟩,
    fun _ _ hi hn => (by rw [hi] at hn; cases hn)⟩

theorem log (h : Accounts s results t) (journal : Journal) :
    Accounts s results { t with journal := journal } := ⟨h.distinct, h.known, h.kept, h.finished⟩

theorem trans (h : Accounts s results t) (h' : Accounts t more u) :
    Accounts s (results ++ more) u := by
  refine ⟨?_, ?_, ?_, ?_⟩
  · rw [List.map_append, List.nodup_append]
    refine ⟨h.distinct, h'.distinct, ?_⟩
    intro a ha b hb he
    obtain ⟨r, hr, rfl⟩ := List.mem_map.1 ha
    obtain ⟨r', hr', rfl⟩ := List.mem_map.1 hb
    obtain ⟨old, hold, -⟩ := h'.known r' hr'
    obtain ⟨-, -, -, hnone⟩ := h.known r hr
    rw [he, hold] at hnone
    cases hnone
  · intro r hr
    rcases List.mem_append.1 hr with hr | hr
    · obtain ⟨old, hold, hp, hnone⟩ := h.known r hr
      refine ⟨old, hold, hp, ?_⟩
      cases hi : u.pending.get? r.token with
      | none => rfl
      | some new =>
        obtain ⟨mid, hmid, -⟩ := h'.kept _ new hi
        rw [hnone] at hmid
        cases hmid
    · obtain ⟨mid, hmid, hp, hnone⟩ := h'.known r hr
      obtain ⟨old, hold, hp', -⟩ := h.kept _ mid hmid
      exact ⟨old, hold, hp.trans hp', hnone⟩
  · intro k new hi
    obtain ⟨mid, hmid, hp, hl⟩ := h'.kept k new hi
    obtain ⟨old, hold, hp', hl'⟩ := h.kept k mid hmid
    exact ⟨old, hold, hp.trans hp', hl'.trans hl⟩
  · intro k old hold hnone
    cases hm : t.pending.get? k with
    | none =>
      refine (h.finished k old hold hm).imp_left ?_
      rintro ⟨r, hr, he⟩
      exact ⟨r, List.mem_append_left _ hr, he⟩
    | some mid =>
      obtain ⟨other, hother, -, hl⟩ := h.kept k mid hm
      obtain rfl := Option.some.inj (hold.symm.trans hother)
      rw [hl]
      refine (h'.finished k mid hm hnone).imp_left ?_
      rintro ⟨r, hr, he⟩
      exact ⟨r, List.mem_append_right _ hr, he⟩

/-- Whether somebody waits for a request stays as it is. -/
theorem isLive (h : Accounts s results t) {k : Token} {old new : Inquiry}
    (hold : s.pending.get? k = some old) (hnew : t.pending.get? k = some new) :
    t.isLive new = s.isLive old := by
  obtain ⟨other, ho, -, hl⟩ := h.kept k new hnew
  obtain rfl := Option.some.inj (hold.symm.trans ho)
  exact hl.symm

end Accounts

/-- Whether somebody waits for a request depends on its tree alone. -/
theorem isLive_congr (h : s.Sound) (h' : t.Sound) (hopen : ∀ id, t.isOpen id = s.isOpen id)
    (hg : ∀ id, (t.tree id).generation = (s.tree id).generation) {k : Token} {old new : Inquiry}
    (hold : s.pending.get? k = some old) (hnew : t.pending.get? k = some new)
    (hp : new.purpose = old.purpose) : s.isLive old = t.isLive new := by
  cases ho : old.purpose with
  | expand id ref generation direction =>
    rw [Bool.eq_iff_iff, h.isLive_iff hold ho, h'.isLive_iff hnew (hp.trans ho), hopen, hg]
  | _ => simp only [isLive, hp, ho]

section Step

variable (h : s.Sound) (h' : t.Sound) (ha : Alters s results t)
include h h' ha

/-- One request is over. -/
theorem accounts_of_erase (hi : s.pending.get? inquiry.token = some inquiry)
    (ht : t.pending = s.pending.erase inquiry.token)
    (hr : (∃ result, results = report inquiry result) ∨
      results = [] ∧ s.isLive inquiry = false) : Accounts s results t := by
  have herase (k : Token) :
      t.pending.get? k = if inquiry.token = k then none else s.pending.get? k := by
    rw [ht, Table.get?_erase]
  have hkept : ∀ k new, t.pending.get? k = some new → ∃ old, s.pending.get? k = some old ∧
      new.purpose = old.purpose ∧ s.isLive old = t.isLive new := by
    intro k new hnew
    have hold := (Table.of_get?_erase (ht ▸ hnew)).2
    exact ⟨new, hold, rfl, isLive_congr h h' ha.isOpen (ha.generation h) hold hnew rfl⟩
  rcases hr with ⟨result, rfl⟩ | ⟨rfl, hdead⟩
  · refine ⟨by simp [report], ?_, hkept, ?_⟩
    · intro r hr
      obtain rfl := List.mem_singleton.1 hr
      exact ⟨inquiry, hi, rfl, (herase _).trans (if_pos rfl)⟩
    · intro k old hold hnone
      rw [herase] at hnone
      split at hnone
      · rename_i hk
        exact .inl ⟨_, List.mem_cons_self, hk⟩
      · rw [hold] at hnone
        cases hnone
  · refine ⟨List.nodup_nil, fun _ hr => (by cases hr), hkept, ?_⟩
    intro k old hold hnone
    rw [herase] at hnone
    split at hnone
    · rename_i hk
      subst hk
      obtain rfl := Option.some.inj (hi.symm.trans hold)
      exact .inr hdead
    · rw [hold] at hnone
      cases hnone

/-- No request is over. -/
theorem accounts_of_put {new : Inquiry} (hr : results = [])
    (hi : s.pending.get? inquiry.token = some inquiry)
    (ht : ∀ k, t.pending.get? k = if inquiry.token = k then some new else s.pending.get? k)
    (hp : new.purpose = inquiry.purpose) : Accounts s results t := by
  subst hr
  refine ⟨List.nodup_nil, fun _ hr => (by cases hr), ?_, ?_⟩
  · intro k later hk
    have hlater := hk
    rw [ht] at hk
    split at hk
    · rename_i he
      subst he
      obtain rfl := Option.some.inj hk
      exact ⟨inquiry, hi, hp, isLive_congr h h' ha.isOpen (ha.generation h) hi hlater hp⟩
    · exact ⟨later, hk, rfl, isLive_congr h h' ha.isOpen (ha.generation h) hk hlater rfl⟩
  · intro k old hold hnone
    rw [ht] at hnone
    split at hnone
    · cases hnone
    · rw [hold] at hnone
      cases hnone

end Step

theorem pending_failed : (s.failed inquiry).pending = s.pending.erase inquiry.token := by
  unfold failed
  split <;> rfl

theorem pending_matched_dropped {rest : List Arrival} {token : Token}
    {found : List (Option LocatedSymbol)} :
    ((s.matched rest token inquiry found).dropped (inquiry.told token found)).pending =
      s.pending.erase inquiry.token := Table.erase_put ..

/-- What a request is once its symbols are looked up. -/
def sought (s : Session) (inquiry : Inquiry) (calls : List Call) (deadline : Number) : Inquiry :=
  { inquiry.asking calls deadline with
    lookups := inquiry.lookups ++ numbers s.nextToken calls.length }

theorem get?_pending_rearmed (calls : List Call) (deadline : Number) (k : Token) :
    (s.rearmed inquiry calls deadline).pending.get? k =
      if inquiry.token = k then some (s.sought inquiry calls deadline)
      else s.pending.get? k := by
  have hput : Table.get? (s.pending.put inquiry.token (inquiry.asking calls deadline))
      inquiry.token = some (inquiry.asking calls deadline) := Table.get?_put_self ..
  have hseeking := get?_pending_seeking (s := { s with
    pending := s.pending.put inquiry.token (inquiry.asking calls deadline) })
    (inquiry.asking calls deadline) calls 0 hput k
  by_cases hk : inquiry.token = k
  · rw [if_pos hk]
    exact hseeking.trans (if_pos hk)
  · rw [if_neg hk]
    exact hseeking.trans ((if_neg hk).trans ((Table.get?_put ..).trans (if_neg hk)))

theorem Effect.accounts (h : s.Sound) (he : Effect s results t) : Accounts s results t := by
  have h' := h.moves (he.moves h)
  have ha := he.alters h
  cases he with
  | ignore => exact ⟨(Accounts.refl s).distinct, fun _ hr => (by cases hr),
      (Accounts.refl s).kept, (Accounts.refl s).finished⟩
  | stale arrivals pending dead =>
    obtain rfl := (h.waiting.own _ _ pending).1
    exact accounts_of_erase h h' ha pending rfl (.inr ⟨rfl, dead⟩)
  | refuse arrivals pending live =>
    obtain rfl := (h.waiting.own _ _ pending).1
    exact accounts_of_erase h h' ha pending pending_failed (.inl ⟨_, rfl⟩)
  | pass arrivals pending passes =>
    obtain rfl := (h.waiting.own _ _ pending).1
    exact accounts_of_erase h h' ha pending rfl (.inl ⟨_, rfl⟩)
  | adopt arrivals pending purpose live read some plain =>
    obtain rfl := (h.waiting.own _ _ pending).1
    exact accounts_of_erase h h' ha pending rfl (.inl ⟨_, rfl⟩)
  | seek arrivals pending purpose live read some resolves timely =>
    obtain rfl := (h.waiting.own _ _ pending).1
    exact accounts_of_put h h' ha rfl pending (get?_pending_rearmed _ _) rfl
  | find arrivals lookup pending tells more =>
    exact accounts_of_put h h' ha rfl pending (Table.get?_put _ _ _) rfl
  | finish arrivals lookup pending tells last purpose live =>
    exact accounts_of_erase h h' ha pending pending_matched_dropped (.inl ⟨_, rfl⟩)
  | lapse arrivals lookup pending tells last dead =>
    exact accounts_of_erase h h' ha pending pending_matched_dropped (.inr ⟨rfl, dead⟩)

/-- The request whose time is up is over. -/
theorem Expiry.pending (he : Expiry s results t) :
    ∃ inquiry, s.pending.get? inquiry.token = some inquiry ∧
      t.pending = s.pending.erase inquiry.token := by
  cases he with
  | adopt pending => exact ⟨_, pending, rfl⟩
  | lapse pending => exact ⟨_, pending, rfl⟩
  | timeOut pending => exact ⟨_, pending, pending_failed⟩

theorem Expiry.arrivals (he : Expiry s results t) : t.arrivals = s.arrivals := by
  cases he with
  | timeOut => exact spends_failed.arrivals
  | _ => rfl

theorem Expiry.accounts (h : s.Sound) (he : Expiry s results t) : Accounts s results t := by
  have h' := h.moves (he.moves h)
  have ha := he.alters h
  cases he with
  | adopt pending => exact accounts_of_erase h h' ha pending rfl (.inl ⟨_, rfl⟩)
  | lapse pending late dead => exact accounts_of_erase h h' ha pending rfl (.inr ⟨rfl, dead⟩)
  | timeOut pending => exact accounts_of_erase h h' ha pending pending_failed (.inl ⟨_, rfl⟩)

/-! ### Chains -/

/-- Steps that account for what they do. -/
structure Lawful (R : Session → List Resolution → Session → Prop) : Prop where
  moves : ∀ {s t results}, Sound s → R s results t → Moves s t
  frame : ∀ {s t results}, R s results t → Frame s t
  alters : ∀ {s t results}, Sound s → R s results t → Alters s results t
  accounts : ∀ {s t results}, Sound s → R s results t → Accounts s results t

theorem lawful_effect : Lawful Effect :=
  ⟨fun h he => he.moves h, Effect.frame, fun h he => he.alters h, fun h he => he.accounts h⟩

theorem lawful_expiry : Lawful Expiry :=
  ⟨fun h he => he.moves h, Expiry.frame, fun h he => he.alters h, fun h he => he.accounts h⟩

/-- A step that a session takes while it is drained. -/
inductive Progress (s : Session) (results : List Resolution) (t : Session) : Prop where
  | effect (effect : Effect s results t)
  | expiry (expiry : Expiry s results t)

theorem lawful_progress : Lawful Progress where
  moves h hp := hp.casesOn (lawful_effect.moves h) (lawful_expiry.moves h)
  frame hp := hp.casesOn lawful_effect.frame lawful_expiry.frame
  alters h hp := hp.casesOn (lawful_effect.alters h) (lawful_expiry.alters h)
  accounts h hp := hp.casesOn (lawful_effect.accounts h) (lawful_expiry.accounts h)

section Lawful

variable (hR : Lawful R) (hc : Chain R s results t)
include hR hc

theorem Chain.frame : Frame s t :=
  hc.keeps (P := Frame s) (.refl s)
    (fun _ _ hu hj => ⟨hu.settings, hu.style, hu.client, hu.now, hu.buffers, hj.trans hu.notes⟩)
    fun _ _ _ hu hv => hu.trans (hR.frame hv)

variable (h : s.Sound)
include h

theorem Chain.sound : t.Sound :=
  hc.keeps h (fun u j hu _ => hu.move (.journal u j)) fun _ _ _ hu hv => hu.moves (hR.moves hu hv)

/-- Nodes of open trees stay where they are. -/
theorem Chain.member {id : TreeId} {ref : NodeRef} (hm : s.Member id ref) :
    t.Member id ref ∧ (t.node ref).mark = (s.node ref).mark := by
  have hall := hc.keeps (P := fun u => u.Sound ∧ u.Member id ref ∧
    (u.node ref).mark = (s.node ref).mark) ⟨h, hm, rfl⟩ ?_ ?_
  · exact hall.2
  · rintro u journal ⟨hu, hm, hmark⟩ -
    exact ⟨hu.move (.journal u journal), ⟨hm.isOpen, hm.tree, hm.contains⟩, hmark⟩
  · rintro u v more ⟨hu, hm, hmark⟩ hv
    obtain ⟨hm', hmark'⟩ := (hR.alters hu hv).member hu hm
    exact ⟨hu.moves (hR.moves hu hv), hm', hmark'.trans hmark⟩

/-- **What steps account for one by one they account for together.** -/
theorem Chain.accounts : Accounts s results t := by
  induction hc with
  | refl => exact .refl s
  | log _ _ ih => exact ih.log _
  | tail before next ih => exact ih.trans (hR.accounts (before.sound hR h) next)

end Lawful

theorem Drains.chain (hd : Drains s results t) : Chain Progress s results t := by
  obtain ⟨first, second, u, rfl, hfirst, -, hsecond, -⟩ := hd.split
  exact (hfirst.mono fun _ _ _ he => .effect he).trans (hsecond.mono fun _ _ _ he => .expiry he)

end SymbolTrees.Session
