import Motmot.Proofs.Paxos.Bids
import Motmot.Proofs.Paxos.Fealty
import Motmot.Proofs.Paxos.Learning
import Motmot.Proofs.Paxos.Numbers
import Motmot.Proofs.Paxos.Opcodes
import Motmot.Proofs.Paxos.Tenure

/-! A session in which nobody but the founder is in office has decrees of one record only. -/

namespace Motmot

variable {start : Node} {event : Event}

/-- The ballot under which the founder begins. -/
def founding : Ballot := ⟨1, 1⟩

/-- A session that is in office if it is the founder's, and under the founding ballot anyway. -/
structure Reigned (pax : Session) : Prop where
  ballot : pax.ballot = founding
  prep : pax.prep = none
  office : isProposer pax = true ↔ pax.selfId = 1

/-- Somebody other than the founder is in office. -/
def Usurped (pax : Session) : Prop := isProposer pax = true ∧ pax.selfId ≠ 1

/-- An event that begins no prepare, and brings no ballot but the founding one. -/
structure Gentle (pax : Session) (event : Event) : Prop where
  resolved : ∀ acc chan, ¬ Continues pax event .ackRedirect acc chan
  unprepared : ∀ source msg, event = .message source msg → msg.hdr.opcode ≠ .prepare
  greeted : ∀ source msg, event = .message source msg → msg.hdr.opcode = .hello →
    msg.hdr.ballot = founding

/-- Whoever is in no office after a move of the handler itself was in none before it. -/
theorem Top.follows {node next : Node} (act : Top start event node next)
    (gentle : Gentle start.pax event) (acceptor : isProposer start.pax = false)
    (follows : isProposer next.pax = false) :
    isProposer node.pax = false ∧ (node.pax.prep = none → next.pax.prep = none) := by
  have leading : isProposer start.pax ≠ true := by simp [acceptor]
  -- Some moves are a proposer's, and what an acceptor does makes it lose nothing.
  cases act with
  | beside prior => exact ⟨acceptor, fun idle => (congrArg Core.prep prior.core).trans idle⟩
  | @depose _ mid _ closed prior _ _ replaces =>
    refine ⟨(isProposer_congr closed.core).trans acceptor, fun idle => ?_⟩
    cases replaces with
    | elect =>
      obtain ⟨_, same⟩ := resetProposer_eq mid
      rw [same]
      have idle : start.pax.prep = none := (congrArg Core.prep closed.core).symm.trans idle
      exact (congrArg Core.prep prior.core).trans idle
    | begin chosen =>
      -- Beginning a prepare takes nobody out of office.
      have follows : isProposer (resetProposer mid).pax = false := follows
      rw [chosen] at follows
      contradiction
  | promise =>
    rw [acceptorPromise_pax]
    exact ⟨acceptor, id⟩
  | store _ _ _ _ stores =>
    obtain ⟨_, _, same⟩ := stores.eq
    rw [same]
    exact ⟨acceptor, id⟩
  | accept _ _ _ _ stores =>
    obtain ⟨_, _, same⟩ := stores.eq
    rw [same]
    exact ⟨acceptor, id⟩
  | commitFresh =>
    rw [instanceInsertAndUpstart_prep]
    exact ⟨acceptor, id⟩
  | commitOver => exact ⟨acceptor, id⟩
  | recommitOver => exact ⟨acceptor, id⟩
  | vote _ _ leads => exact absurd leads leading
  | reject _ _ leads => exact absurd leads leading
  | rebroadcast _ _ leads => exact absurd leads leading
  | rewrite => exact ⟨follows, id⟩
  | merge _ _ leads => exact absurd leads leading
  | ack _ _ leads => exact absurd leads leading
  | win _ _ _ _ _ _ _ _ _ _ leads => exact absurd leads leading
  | fill _ _ _ _ _ _ _ _ completes => exact absurd completes.choose_spec.1 leading
  | redecree _ _ _ _ _ _ completes => exact absurd completes.choose_spec.1 leading
  | settle _ _ _ completes => exact absurd completes.choose_spec.1 leading
  | undefer _ _ _ completes => exact absurd completes.choose_spec.1 leading
  | redirect _ _ leads => exact absurd leads leading
  | rebegin reason =>
    rcases reason with ⟨_, _, _, _, -, leads, -⟩ | ⟨_, _, continues, -⟩
    · exact absurd leads leading
    · exact absurd continues (gentle.resolved _ _)
  | yieldRedirect _ continues => exact absurd continues (gentle.resolved _ _)
  | @yieldRefuse mid _ acc _ prior =>
    refine ⟨acceptor, fun _ => ?_⟩
    unfold yieldTo
    split
    · split <;> rfl
    · rfl
  | @helloYield mid _ hdr _ _ _ prior =>
    refine ⟨acceptor, fun idle => ?_⟩
    show (Node.pax (if _ then _ else _)).prep = none
    split
    · rfl
    · exact (congrArg Core.prep prior.core).trans idle
  | helloBallot => exact ⟨follows, id⟩
  | truncate => exact ⟨follows, id⟩
  | recommit => exact ⟨acceptor, id⟩
  | welcome => exact ⟨follows, id⟩

/-- Nor does a learning loop take anybody out of office. -/
theorem Inner.follows {config after : Config} (move : Inner start event config after)
    (follows : isProposer after.node.pax = false) :
    isProposer config.node.pax = false ∧
      (config.node.pax.prep = none → after.node.pax.prep = none) := by
  have same : ∀ {node next : Node}, next.pax.core = node.pax.core → isProposer next.pax = false →
      isProposer node.pax = false ∧ (node.pax.prep = none → next.pax.prep = none) :=
    fun core follows => ⟨(isProposer_congr core).symm.trans follows,
      (congrArg Core.prep core).trans⟩
  -- Only a deposition elects somebody, and one that begins a prepare elects us.
  cases move with
  | @nest node next _ _ act =>
    refine ⟨?_, act.office.1.trans⟩
    have self : next.pax.selfId = node.pax.selfId := congrArg Polity.selfId act.polity
    have proposer : next.pax.proposer = node.pax.proposer := congrArg Polity.proposer act.polity
    rw [isProposer, ← self, ← proposer]
    exact follows
  | @learn node _ addr inst =>
    have core := learnt_core node addr inst (learnRequest node.pax inst.val)
    refine ⟨?_, (congrArg Core.prep core).trans⟩
    have self : (learnt node addr inst _).pax.selfId = node.pax.selfId := congrArg Core.selfId core
    have proposer : (learnt node addr inst _).pax.proposer = node.pax.proposer :=
      congrArg Core.proposer core
    rw [isProposer, ← self, ← proposer]
    exact follows
  | @delist node _ _ paxid => exact same (delist_core node paxid) follows
  | @depose node _ _ paxid next other led replaces =>
    constructor
    · rw [isProposer, led]
      simpa using other
    · intro idle
      cases replaces with
      | elect =>
        obtain ⟨_, eq⟩ := resetProposer_eq (Motmot.delist node paxid)
        rw [eq]
        exact (congrArg Core.prep (delist_core node paxid)).trans idle
      | begin chosen =>
        have follows : isProposer (resetProposer (Motmot.delist node paxid)).pax = false := follows
        rw [chosen] at follows
        contradiction
  | enter => exact ⟨follows, id⟩
  | next => exact ⟨follows, id⟩
  | last => exact ⟨follows, id⟩
  | gap => exact ⟨follows, id⟩
  | rest => exact ⟨follows, id⟩

/-- A gentle event brings a session under the founder no other ballot. -/
theorem Comes.founding {pax : Session} {ballot : Ballot} (comes : Comes pax event ballot)
    (reigned : Reigned pax) (gentle : Gentle pax event) : ballot = founding := by
  -- No prepare comes, a hello brings the ballot of the founder, and no bid is running.
  cases comes with
  | pledged pledges =>
    obtain ⟨_, _, _, _, asked, opcode, -⟩ := pledges.asked
    exact absurd opcode (gentle.unprepared _ _ asked)
  | crowned crowns =>
    obtain ⟨_, _, _, _, asked, opcode, rfl, -⟩ := crowns
    exact gentle.greeted _ _ asked opcode
  | won completes =>
    obtain ⟨-, preparing, -⟩ := completes
    rw [reigned.prep] at preparing
    contradiction

/-- Nobody who has usurped the office leaves it before the end of a handler. -/
theorem Move.usurped {config after : Config} (move : Move start event config after)
    (begun : Reigned start.pax) (gentle : Gentle start.pax event)
    (self : config.node.pax.selfId = start.pax.selfId) (usurped : Usurped config.node.pax) :
    Usurped after.node.pax := by
  obtain ⟨leads, other⟩ := usurped
  -- Whoever lost the office in this move would have held it before, which nobody else does.
  rw [self] at other
  refine ⟨?_, by rw [move.selfId self]; exact other⟩
  by_contra stays
  have office : isProposer after.node.pax = false := by simpa using stays
  have acceptor : isProposer start.pax = false := by
    simpa using fun leads => other (begun.office.mp leads)
  have followed : isProposer config.node.pax = false := by
    cases move with
    | top act => exact (act.follows gentle acceptor office).1
    | inner move => exact (move.follows office).1
  rw [followed] at leads
  contradiction

/-- Every move leaves the founder in office, and under its ballot, unless somebody usurps that. -/
theorem Move.reigned {config after : Config} (move : Move start event config after)
    (begun : Reigned start.pax) (gentle : Gentle start.pax event)
    (self : config.node.pax.selfId = start.pax.selfId) (reigned : Reigned config.node.pax)
    (peaceful : ¬ Usurped after.node.pax) : Reigned after.node.pax := by
  have selfAfter := move.selfId self
  by_cases founder : start.pax.selfId = 1
  · -- The founder is prepared throughout.
    obtain ⟨prepared, ballot⟩ := move.prepared
      { proposer := begun.office.mpr founder
        redirected := fun _ _ _ _ _ => begun.prep
        greeted := fun _ _ _ _ _ => begun.prep
        resolved := fun acc chan continues => absurd continues (gentle.resolved acc chan)
        refused := fun _ _ _ _ => begun.prep }
      ⟨reigned.office.mpr (self.trans founder), reigned.prep⟩
    refine ⟨?_, prepared.2, fun _ => selfAfter.trans founder, fun _ => prepared.1⟩
    rcases ballot with same | ⟨_, _, _, asked, opcode, -, same⟩
    · exact same.trans reigned.ballot
    · exact same.symm.trans (gentle.greeted _ _ asked opcode)
  · -- The others follow throughout, since nobody usurps the office.
    have foreign : after.node.pax.selfId ≠ 1 := fun own => founder (selfAfter.symm.trans own)
    have office : isProposer after.node.pax = false := by
      simpa using fun leads => peaceful ⟨leads, foreign⟩
    have acceptor : isProposer start.pax = false := by
      simpa using fun leads => founder (begun.office.mp leads)
    refine ⟨?_, ?_, fun leads => ?_, fun own => absurd own foreign⟩
    · cases move with
      | top act =>
        rcases act.comes with same | comes
        · exact same.trans reigned.ballot
        · exact comes.founding begun gentle
      | inner move => exact move.ballot.trans reigned.ballot
    · cases move with
      | top act => exact (act.follows gentle acceptor office).2 reigned.prep
      | inner move => exact (move.follows office).2 reigned.prep
    · rw [office] at leads
      contradiction

/-- A decree is on record: the record has its value at its number, counted from one. -/
def Records (book : List Value) (decree : Decree) : Prop :=
  0 < decree.inum ∧ book[decree.inum - 1]? = some decree.val

namespace Records

variable {book : List Value} {decree : Decree}

/-- What is on record stays there while the record grows. -/
theorem append (records : Records book decree) (more : List Value) :
    Records (book ++ more) decree := by
  obtain ⟨past, entry⟩ := records
  refine ⟨past, ?_⟩
  have inside : decree.inum - 1 < book.length := (List.getElem?_eq_some_iff.mp entry).1
  rw [List.getElem?_append_left inside]
  exact entry

/-- No number on record is past the end of the record. -/
theorem le (records : Records book decree) : decree.inum ≤ book.length := by
  have inside : decree.inum - 1 < book.length := (List.getElem?_eq_some_iff.mp records.2).1
  omega

/-- The next decree goes to the end of the record. -/
theorem next (book : List Value) (val : Value) :
    Records (book ++ [val]) ⟨book.length + 1, val⟩ :=
  ⟨Nat.succ_pos _, List.getElem?_concat_length⟩

end Records

/-- The log of the founder ends with the record, and nothing past the end was learned. -/
def Whole (book : List Value) (pax : Session) : Prop :=
  pax.ilist.Has book.length ∧ pax.ihole ≤ book.length + 1

/-- A session under the founder, whose decrees are all on record. -/
structure Ruled (book : List Value) (pax : Session) : Prop where
  reigned : Reigned pax
  /-- Only the founder waits to welcome somebody, and nobody waits to resolve a redirect. -/
  waits : ∀ k ∈ pax.clist, k.purpose ≠ .ackRedirect ∧
    (k.purpose = .welcome → pax.selfId = 1 ∧ 2 ≤ k.paxid)
  past : pax.selfId = 1 → 2 ≤ pax.ihole
  plain : pax.ilist.Lacks .hello ∧ pax.ilist.Lacks .prepare
  recorded : ∀ decree, pax.ilist.Stocks decree → Records book decree
  whole : pax.selfId = 1 → Whole book pax

/-- A message from a session under the founder. -/
structure Msg.Ruled (book : List Value) (msg : Msg) : Prop where
  recorded : ∀ decree, msg.Carries decree → Records book decree
  plain : msg.Lacks .hello ∧ msg.Lacks .prepare
  unprepared : msg.hdr.opcode ≠ .prepare
  greeting : msg.hdr.opcode = .hello → msg.hdr.ballot = founding
  welcome : ∀ session ibase alist ilist, msg.body = .welcome session ibase alist ilist →
    msg.hdr.ballot = founding ∧ 2 ≤ msg.hdr.inum

/-- An effect of a session under the founder: what it learns is on record, and what it sends. -/
structure Effect.Ruled (book : List Value) (effect : Effect) : Prop where
  learned : ∀ inum val, effect = .learn inum val → Records book ⟨inum, val⟩
  sent : ∀ peer msg, effect = .send peer msg → msg.Ruled book

/-- What governs a message still does when the record has grown. -/
theorem Msg.Ruled.append {book : List Value} {msg : Msg} (ruled : msg.Ruled book)
    (more : List Value) : msg.Ruled (book ++ more) :=
  { ruled with recorded := fun decree carries => (ruled.recorded decree carries).append more }

theorem Effect.Ruled.append {book : List Value} {effect : Effect}
    (ruled : effect.Ruled book) (more : List Value) : effect.Ruled (book ++ more) where
  learned := fun inum val same => (ruled.learned inum val same).append more
  sent := fun peer msg same => (ruled.sent peer msg same).append more

/-- An event whose messages come from sessions under the founder, and that replaces no part. -/
structure Lawful (book : List Value) (pax : Session) (event : Event) : Prop where
  brings : ∀ source msg, event = .message source msg → msg.Ruled book
  stands : ∀ inum acc peer, ¬ Continues pax event (.ackReject inum) acc (some peer)

variable {opening book : List Value}

/-- What is lawful still is when the record has grown. -/
theorem Lawful.append {pax : Session} (lawful : Lawful book pax event) (more : List Value) :
    Lawful (book ++ more) pax event where
  brings := fun source msg asked => (lawful.brings source msg asked).append more
  stands := lawful.stands

/-- A lawful event is gentle to a session under the founder. -/
theorem Lawful.gentle {pax : Session} (lawful : Lawful book pax event)
    (ruled : Ruled opening pax) : Gentle pax event where
  resolved := by
    rintro acc chan ⟨_, k, -, found, purpose, -⟩
    exact (ruled.waits k (List.mem_of_find?_eq_some found)).1 purpose
  unprepared := fun source msg asked => (lawful.brings source msg asked).unprepared
  greeted := fun source msg asked => (lawful.brings source msg asked).greeting

/-- Nobody who is under the founder completes a prepare. -/
theorem Reigned.incomplete {pax : Session} (reigned : Reigned pax) :
    ¬ ∃ prep, Completes pax event prep := by
  rintro ⟨prep, -, preparing, -⟩
  rw [reigned.prep] at preparing
  contradiction

/-- A lawful event makes nothing null. -/
theorem Lawful.keeps {pax : Session} (lawful : Lawful book pax event) (reigned : Reigned pax) :
    ¬ Nullifies pax event := by
  rintro (completes | ⟨inum, acc, peer, continues⟩)
  · exact reigned.incomplete completes
  · exact lawful.stands inum acc peer continues

/-- Whoever waits with a welcome under the founder is the founder, who has somebody to welcome. -/
theorem Ruled.welcomes {pax : Session} {acc : Acceptor} {chan : Option PeerId}
    (ruled : Ruled book pax) (continues : Continues pax event .welcome acc chan) :
    pax.selfId = 1 ∧ 2 ≤ acc.paxid := by
  obtain ⟨_, k, -, found, purpose, listed⟩ := continues
  obtain ⟨own, later⟩ := (ruled.waits k (List.mem_of_find?_eq_some found)).2 purpose
  exact ⟨own, (SortedList.findFwd_mem listed).2 ▸ later⟩

/-- The next number after a log that ends with the record is the next of the record. -/
theorem Whole.next {pax : Session} (whole : Whole book pax) (wf : pax.ilist.WellFormed)
    (recorded : ∀ decree, pax.ilist.Stocks decree → Records book decree) :
    nextInstance pax = book.length + 1 := by
  -- The last of the log is on the record, which ends where the log does.
  obtain ⟨⟨cell, mem, number⟩, -⟩ := whole
  have past := lt_nextInstance wf mem
  obtain ⟨last, memLast, same⟩ := nextInstance_last mem
  have bound : last.inum ≤ book.length :=
    (recorded last.inst.decree ⟨last.inst, Ilist.allots_of_mem memLast, rfl⟩).le
  omega

section Moves

variable {record : List Value} {config after : Config}

/-- No lawful move frees the last number of the founder's log. -/
theorem Move.last {number : Nat} (move : Move start event config after)
    (wf : config.node.pax.ilist.WellFormed) (leads : isProposer start.pax = true)
    (has : config.node.pax.ilist.Has number) (hole : config.node.pax.ihole ≤ number + 1) :
    after.node.pax.ilist.Has number := by
  -- Only a truncation frees numbers.
  cases move with
  | inner move => exact (move.numbers wf).1 has
  | @top node _ act =>
    rcases (act.numbers wf).1 has with still | ⟨bound, truncates, core, below⟩
    · exact still
    · rcases truncates with ⟨_, _, _, _, acceptor⟩ | ⟨_, _, last, sync, _, _, _, _, bounded, _⟩
      · rw [leads] at acceptor
        contradiction
      · -- The founder truncates only what everybody has learned.
        have least : bound ≤ start.pax.ihole - 1 := bounded ▸ Nat.min_le_left _ _
        have same : node.pax.ihole = start.pax.ihole := congrArg Core.ihole core
        have hole : node.pax.ihole ≤ number + 1 := hole
        omega

/-- A move adds to the log what is on record, or the founder adds to both. -/
theorem Asks.recorded {before next : Node} (asks : Asks start event before next)
    (wf : before.pax.ilist.WellFormed) (lawful : Lawful book start.pax event)
    (begun : Ruled opening start.pax) (self : before.pax.selfId = start.pax.selfId)
    (ruled : Ruled book before.pax) :
    (∀ decree, next.pax.ilist.Stocks decree → Records book decree) ∨
      before.pax.selfId = 1 ∧ ∃ val, next.pax.ilist.Has (book.length + 1) ∧
        ∀ decree, next.pax.ilist.Stocks decree → Records (book ++ [val]) decree := by
  -- The log gains what is on record, or what the founder decrees next.
  cases asks with
  | idle idle =>
    refine Or.inl fun decree stocks => ?_
    rcases idle.stock decree stocks with held | ⟨source, msg, asked, carries⟩ | ⟨-, nullifies⟩
    · exact ruled.recorded decree held
    · exact (lawful.brings source msg asked).recorded decree carries
    · exact absurd nullifies (lawful.keeps begun.reigned)
  | @deferred mid _ prior preparing =>
    have prep : mid.pax.prep = before.pax.prep := congrArg Core.prep prior.core
    rw [prep, ruled.reigned.prep] at preparing
    contradiction
  | @decreed mid inst prior _ rightful =>
    right
    have founder : before.pax.selfId = 1 := by
      rcases rightful with leads | ⟨-, acc, continues⟩
      · rw [isProposer_congr prior.core] at leads
        exact ruled.reigned.office.mp leads
      · exact self.trans (begun.welcomes continues).1
    have wfMid := prior.wellFormed wf
    have next : nextInstance mid.pax = book.length + 1 := by
      rw [← (ruled.whole founder).next wf ruled.recorded]
      unfold nextInstance
      rw [prior.ilist]
    refine ⟨founder, inst.val, ?_, fun decree stocks => ?_⟩
    · exact (has_announceDecree inst wfMid _).mpr (Or.inl next.symm)
    · rcases announceDecree_stock wfMid stocks with rfl | held
      · rw [next]
        exact .next book inst.val
      · exact (ruled.recorded decree (prior.ilist ▸ held)).append [inst.val]
  | undeferred _ completes => exact absurd completes begun.reigned.incomplete

/-- What a move tells comes from a log under the founder, or is a greeting of the founder's. -/
theorem Tells.ruled {before next : Node} {made : List Request} {effect : Effect}
    (tells : Tells start event made before next effect) (begun : Ruled opening start.pax)
    (ruled : Ruled book before.pax)
    (known : ∀ decree, before.pax.ilist.Stocks decree → Records record decree)
    (recorded : Ruled record next.pax) : effect.Ruled record := by
  -- Whatever a message discloses is in the log before the move or after it.
  have disclosed : ∀ decree, effect.Discloses decree → Records record decree := by
    intro decree discloses
    rcases tells.discloses discloses with held | held
    · exact known decree held
    · exact recorded.recorded decree held
  refine ⟨fun inum val same => disclosed ⟨inum, val⟩ (Or.inl same), ?_⟩
  rintro peer msg rfl
  have plain : msg.Lacks .hello ∧ msg.Lacks .prepare :=
    ⟨tells.lacks ruled.plain.1, tells.lacks ruled.plain.2⟩
  have carried : ∀ decree, msg.Carries decree → Records record decree :=
    fun decree carries => disclosed decree (Or.inr ⟨peer, msg, rfl, carries⟩)
  cases tells with
  | side side =>
    cases side with
    | send _ _ side =>
      have known := Msg.side_opcode side
      refine ⟨carried, plain, ?_, ?_, ?_⟩
      · intro opcode
        rw [opcode] at known
        contradiction
      · intro opcode
        rw [opcode] at known
        contradiction
      · intro session ibase alist ilist body
        simp only [Msg.side, Bool.and_eq_true] at side
        cases opcode : msg.hdr.opcode <;>
          simp [opcode, body, Opcode.side, shaped] at known side
    | hello _ _ opcode _ ballot =>
      refine ⟨carried, plain, by simp [opcode], fun _ => ballot.trans begun.reigned.ballot, ?_⟩
      intro _ _ _ _ body
      contradiction
  | inst held =>
    -- No instance passes for a hello or a prepare.
    have listed := Ilist.allots_of_inst? held
    refine ⟨carried, plain, recorded.plain.2 _ listed,
      fun opcode => absurd opcode (recorded.plain.1 _ listed), ?_⟩
    intro _ _ _ _ body
    contradiction
  | prepare preparing =>
    rw [ruled.reigned.prep] at preparing
    contradiction
  | promise | accept | recommit =>
    refine ⟨carried, plain, ?_, ?_, ?_⟩
    · intro opcode
      contradiction
    · intro opcode
      contradiction
    · intro _ _ _ _ body
      contradiction
  | welcome _ continues =>
    refine ⟨carried, plain, ?_, ?_,
      fun _ _ _ _ _ => ⟨ruled.reigned.ballot, (begun.welcomes continues).2⟩⟩
    all_goals
      intro opcode
      contradiction

/-- What a learn tells is on record. -/
theorem Teaches.ruled {before : Node} {effect : Effect} (teaches : Teaches before effect)
    (recorded : ∀ decree, before.pax.ilist.Stocks decree → Records book decree) :
    effect.Ruled book := by
  refine ⟨fun inum val same => recorded _ (teaches.discloses (Or.inl same)), ?_⟩
  rintro peer msg rfl
  cases teaches

/-- Opcodes that a session under the founder does not write into its log. -/
theorem Reigned.unwritten {pax : Session} (reigned : Reigned pax) :
    Unwritten pax event .prepare where
  decree := by decide
  commit := by decide
  recommit := by decide
  filled := fun completes => absurd completes reigned.incomplete

/-- A lawful move keeps a session ruled, with what the founder decrees in it on record. -/
theorem Move.ruled {first : Nat} (move : Move start event config after)
    (wf : config.node.pax.ilist.WellFormed) (stands : Stands first config)
    (begun : Ruled opening start.pax) (lawful : Lawful book start.pax event)
    (self : config.node.pax.selfId = start.pax.selfId) (ruled : Ruled book config.node.pax)
    (peaceful : ¬ Usurped after.node.pax) :
    ∃ more effects, (start.pax.selfId = 1 ∨ more = []) ∧
      Ruled (book ++ more) after.node.pax ∧ after.node.out = config.node.out ++ effects ∧
        ∀ effect ∈ effects, effect.Ruled (book ++ more) := by
  -- The move keeps the reign, and with it who may be in office and what is on record.
  have gentle := lawful.gentle begun
  have selfAfter := move.selfId self
  have whole : after.node.pax.selfId = 1 → Whole book config.node.pax :=
    fun own => ruled.whole (self.trans (selfAfter.symm.trans own))
  obtain ⟨made, effects, tale, tells⟩ := move.tells wf
  have hole : config.node.pax.ihole ≤ after.node.pax.ihole ∧
      -- The numbers rise by at most the one that was learned.
      (after.node.pax.selfId = 1 → after.node.pax.ihole ≤ book.length + 1) := by
    rcases move.hole stands with same | ⟨next, cell, mem, number⟩
    · exact ⟨Nat.le_of_eq same.symm, fun own => same ▸ (whole own).2⟩
    · -- What is learned is in the log, so it is on record.
      have bound := (ruled.recorded _ ⟨cell.inst, Ilist.allots_of_mem mem, rfl⟩).le
      have bound : cell.inum ≤ book.length := bound
      omega
  have keeps : ∀ record, (∀ decree, after.node.pax.ilist.Stocks decree → Records record decree) →
      (after.node.pax.selfId = 1 → Whole record after.node.pax) →
        Ruled record after.node.pax := by
    intro record recorded whole
    refine ⟨move.reigned begun.reigned gentle self ruled.reigned peaceful, ?_, ?_, ⟨?_, ?_⟩,
      recorded, whole⟩
    · intro k mem
      rcases tale.pending k mem with waiting | fresh
      · obtain ⟨other, welcome⟩ := ruled.waits k waiting
        refine ⟨other, fun purpose => ?_⟩
        obtain ⟨own, later⟩ := welcome purpose
        exact ⟨selfAfter.trans (self.symm.trans own), later⟩
      · refine ⟨fun purpose => ?_, fun purpose => ?_⟩
        · have preparing := fresh.redirected purpose
          rw [ruled.reigned.prep] at preparing
          contradiction
        · -- The founder welcomes whoever has joined at its hole.
          obtain ⟨leads, same⟩ := fresh.joined purpose
          have own := ruled.reigned.office.mp leads
          exact ⟨selfAfter.trans (self.symm.trans own), same ▸ ruled.past own⟩
    · intro own
      exact Nat.le_trans (ruled.past (self.trans (selfAfter.symm.trans own))) hole.1
    · exact move.lacks (.hello _ _) wf ruled.plain.1
        fun source msg asked => (lawful.brings source msg asked).plain.1
    · exact move.lacks begun.reigned.unwritten wf ruled.plain.2
        fun source msg asked => (lawful.brings source msg asked).plain.2
  have told : ∀ {record}, (∀ decree, config.node.pax.ilist.Stocks decree →
      Records record decree) → Ruled record after.node.pax →
        ∀ effect ∈ effects, effect.Ruled record := by
    intro record before later effect mem
    rcases tells effect mem with tells | teaches
    · exact tells.ruled begun ruled before later
    · exact teaches.ruled before
  -- The record stays as it is, or the founder adds the value that it decrees.
  rcases (move.asks wf).recorded wf lawful begun self ruled with recorded |
    ⟨founder, val, last, recorded⟩
  · refine ⟨[], effects, Or.inr rfl, ?_⟩
    rw [List.append_nil]
    have later := keeps book recorded fun own => by
      have leads := begun.reigned.office.mpr (selfAfter.symm.trans own)
      exact ⟨move.last wf leads (whole own).1 (whole own).2, hole.2 own⟩
    exact ⟨later, tale.out, told ruled.recorded later⟩
  · refine ⟨[val], effects, Or.inl (self.symm.trans founder), ?_⟩
    have later := keeps (book ++ [val]) recorded fun own => by
      refine ⟨by simpa using last, ?_⟩
      have bound := hole.2 own
      simp only [List.length_append, List.length_singleton]
      omega
    exact ⟨later, tale.out,
      told (fun decree stocks => (ruled.recorded decree stocks).append [val]) later⟩

end Moves

/-- What a session under the founder has done in the middle of a handler. -/
structure Obeys (book : List Value) (start node : Node) (more : List Value) : Prop where
  founder : start.pax.selfId = 1 ∨ more = []
  ruled : Ruled (book ++ more) node.pax
  told : ∃ effects, node.out = start.out ++ effects ∧
    ∀ effect ∈ effects, effect.Ruled (book ++ more)

/-- Every move goes on from what was done before it. -/
theorem Obeys.move {first : Nat} {config after : Config} {more : List Value}
    (obeys : Obeys book start config.node more) (move : Move start event config after)
    (wf : config.node.pax.ilist.WellFormed) (stands : Stands first config)
    (begun : Ruled book start.pax) (lawful : Lawful book start.pax event)
    (self : config.node.pax.selfId = start.pax.selfId) (peaceful : ¬ Usurped after.node.pax) :
    ∃ more, Obeys book start after.node more := by
  -- What was told before is of the shorter record, and so of the longer.
  obtain ⟨founder, ruled, early, out, told⟩ := obeys
  obtain ⟨last, late, own, kept, added, tells⟩ :=
    move.ruled wf stands begun (lawful.append more) self ruled peaceful
  rw [List.append_assoc] at kept tells
  refine ⟨more ++ last, ?_, kept, early ++ late, ?_, fun effect mem => ?_⟩
  · rcases founder with founder | rfl
    · exact Or.inl founder
    · exact own
  · rw [added, out, List.append_assoc]
  · rcases List.mem_append.mp mem with mem | mem
    · rw [← List.append_assoc]
      exact (told effect mem).append last
    · exact tells effect mem

/--
A lawful handler keeps a session ruled, as long as it leaves nobody else in office.

Only the founder adds to the record, and all that the handler learns and sends is on record.
-/
theorem Handles.ruled {first : Nat} {node : Node} {result : Result}
    (handles : Handles node event result) (wf : node.pax.ilist.WellFormed)
    (learned : Learned first node.pax.ihole node) (ruled : Ruled book node.pax)
    (lawful : Lawful book node.pax event)
    (peaceful : isProposer result.state.pax = true → node.pax.selfId = 1) :
    ∃ more, (node.pax.selfId = 1 ∨ more = []) ∧
      (∀ next, result = .ok next → Ruled (book ++ more) next.pax) ∧
        ∀ effect ∈ fresh node result, effect.Ruled (book ++ more) := by
  -- The invariant holds until somebody usurps the office, who would have it at the end.
  have account := @Handles.invariant node event result
    (fun config => Stands first config ∧ config.node.pax.selfId = node.pax.selfId ∧
      (Usurped config.node.pax ∨ ∃ more, Obeys book node config.node more)) handles wf
    (fun script => ⟨.idle (learned.frame rfl), rfl,
      Or.inr ⟨[], Or.inr rfl, by rw [List.append_nil]; exact ruled, [], by simp, by simp⟩⟩)
    fun {script config after} move wf ⟨stands, self, obeys⟩ => by
      refine ⟨stands.move move wf, move.selfId self, ?_⟩
      by_cases peaceful : Usurped after.node.pax
      · exact Or.inl peaceful
      · rcases obeys with usurped | ⟨more, obeys⟩
        · exact absurd
            (move.usurped ruled.reigned (lawful.gentle ruled) self usurped) peaceful
        · obtain ⟨more, next⟩ := @Obeys.move { node with script := script } event book first config
            after more ⟨obeys.founder, obeys.ruled, obeys.told⟩ move wf stands ruled lawful
            self peaceful
          exact Or.inr ⟨more, next.founder, next.ruled, next.told⟩
  -- Whoever has usurped the office would still be there when the handler is done.
  cases result with
  | ok next =>
    obtain ⟨-, self, obeys⟩ := account.1 next rfl
    rcases obeys with ⟨leads, other⟩ | ⟨more, obeys⟩
    · exact absurd (self.trans (peaceful leads)) other
    · obtain ⟨effects, out, told⟩ := obeys.told
      refine ⟨more, obeys.founder, ?_, ?_⟩
      · rintro other same
        cases same
        exact obeys.ruled
      · intro effect mem
        rw [fresh, show (Outcome.ok next : Result).state = next from rfl, out,
          List.drop_left] at mem
        exact told effect mem
  | stop reason halted =>
    obtain ⟨reached, ⟨-, self, obeys⟩, -, halts⟩ := account.2 reason halted rfl
    rcases obeys with ⟨leads, other⟩ | ⟨more, obeys⟩
    · exact absurd (self.trans (peaceful (halts.office leads))) other
    · obtain ⟨effects, out, told⟩ := obeys.told
      obtain ⟨last, added, teaches⟩ := halts.told
      refine ⟨more, obeys.founder, fun next same => by contradiction, fun effect mem => ?_⟩
      rw [fresh, show (Outcome.stop reason halted : Result).state = halted from rfl, added, out,
        List.append_assoc, List.drop_left] at mem
      rcases List.mem_append.mp mem with mem | mem
      · exact told effect mem
      · exact (teaches effect mem).ruled obeys.ruled.recorded

end Motmot
