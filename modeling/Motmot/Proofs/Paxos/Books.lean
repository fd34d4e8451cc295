import Motmot.Proofs.Paxos.Bids
import Motmot.Proofs.Paxos.Stock

/-! The requests that a session caches and sends on are those that somebody has made. -/

namespace Motmot

/-- The client hears of a chat right after the learn of its request, whose data it hears. -/
inductive Quotes (book : List Request) : List Effect → Prop where
  | nil : Quotes book []
  | other {effect rest} (silent : ∀ data desc, effect ≠ .chat data desc)
      (quotes : Quotes book rest) : Quotes book (effect :: rest)
  | chat {inum val req desc rest} (booked : req ∈ book) (same : req.val.reqid = val.reqid)
      (quotes : Quotes book rest) :
      Quotes book (.learn inum val :: .chat req.data desc :: rest)

namespace Quotes

variable {book more : List Request} {front back out : List Effect}

/-- A record goes on with what else was heard. -/
theorem append (first : Quotes book front) (last : Quotes book back) :
    Quotes book (front ++ back) := by
  induction first with
  | nil => exact last
  | other silent _ ih => exact .other silent ih
  | chat booked same _ ih => exact .chat booked same ih

/-- A record stays right while requests are added to the book. -/
theorem mono (quotes : Quotes book out) (subset : ∀ req ∈ book, req ∈ more) :
    Quotes more out := by
  induction quotes with
  | nil => exact .nil
  | other silent _ ih => exact .other silent ih
  | chat booked same _ ih => exact .chat (subset _ booked) same ih

/-- Nothing is heard of where no chat is. -/
theorem silent (silent : ∀ effect ∈ out, ∀ data desc, effect ≠ .chat data desc) :
    Quotes book out := by
  induction out with
  | nil => exact .nil
  | cons effect rest ih =>
    exact .other (silent effect List.mem_cons_self)
      (ih fun late mem => silent late (List.mem_cons_of_mem _ mem))

/-- No record begins with a chat. -/
theorem not_chat {data desc : Bytes} : ¬ Quotes book (.chat data desc :: out) := by
  intro quotes
  cases quotes with
  | other silent => exact silent data desc rfl

/-- What is heard right after a learn are the data of its request. -/
theorem heard {inum : Nat} {val : Value} {data desc : Bytes}
    (quotes : Quotes book (front ++ .learn inum val :: .chat data desc :: back)) :
    ∃ req ∈ book, req.val.reqid = val.reqid ∧ req.data = data := by
  -- The learn and the chat are found by going through the record from its front.
  generalize whole : front ++ .learn inum val :: .chat data desc :: back = record at quotes
  induction quotes generalizing front with
  | nil => simp at whole
  | other _ quotes ih =>
    cases front with
    | nil =>
      obtain ⟨-, rfl⟩ := List.cons.inj whole
      exact absurd quotes not_chat
    | cons head front => exact ih (List.cons.inj whole).2
  | chat booked same _ ih =>
    match front with
    | [] =>
      simp only [List.nil_append, List.cons.injEq, Effect.learn.injEq, Effect.chat.injEq] at whole
      obtain ⟨⟨-, rfl⟩, ⟨rfl, -⟩, -⟩ := whole
      exact ⟨_, booked, same, rfl⟩
    | [head] => simp at whole
    | head :: next :: front =>
      simp only [List.cons_append, List.cons.injEq] at whole
      exact ih whole.2.2

end Quotes

variable {start : Node} {event : Event} {node next : Node}

/-- No move takes back the count of requests. -/
theorem Asks.counted (asks : Asks start event node next) : node.pax.reqId ≤ next.pax.reqId := by
  -- A decree counts its own request; the other moves leave the count alone.
  cases asks with
  | idle idle => exact idle.counted
  | deferred prior => exact prior.counted
  | decreed prior =>
    rw [announceDecree_reqId]
    exact prior.counted
  | undeferred =>
    rw [announceDecree_reqId]
    exact Nat.le_refl _

/-- A message whose request, if it carries one, is booked. -/
def Msg.Booked (book : List Request) (msg : Msg) : Prop :=
  ∀ req, msg.body = .request req → req ∈ book

/-- What is told to the client and to others since the beginning of a handler. -/
structure Reports (book : List Request) (effects : List Effect) : Prop where
  quotes : Quotes book effects
  sends : ∀ peer msg, .send peer msg ∈ effects → msg.Booked book

/-- Reports follow each other. -/
theorem Reports.append {book : List Request} {early late : List Effect}
    (first : Reports book early) (last : Reports book late) : Reports book (early ++ late) where
  quotes := first.quotes.append last.quotes
  -- What is sent is sent in one part or in the other.
  sends := by
    intro peer msg mem
    rcases List.mem_append.mp mem with mem | mem
    · exact first.sends peer msg mem
    · exact last.sends peer msg mem

theorem Reports.mono {book more : List Request} {effects : List Effect}
    (reports : Reports book effects) (subset : ∀ req ∈ book, req ∈ more) :
    Reports more effects where
  quotes := reports.quotes.mono subset
  sends := fun peer msg mem req carries => subset req (reports.sends peer msg mem req carries)

/-- The requests that a session in the middle of a handler knows, and those that it has made. -/
structure Keeps (book : List Request) (start : Node) (event : Event) (node : Node)
    (made : List Request) : Prop where
  self : node.pax.selfId = start.pax.selfId
  counted : start.pax.reqId ≤ node.pax.reqId
  issued : Issued start event start node made
  cached : ∀ req ∈ node.pax.rcache, req ∈ book ++ made
  told : ∃ effects, node.out = start.out ++ effects ∧ Reports (book ++ made) effects

/-- An event that brings in nothing but booked requests, and has none rebuilt. -/
structure Honest (book : List Request) (pax : Session) (event : Event) : Prop where
  brings : ∀ req, event.Brings req → req ∈ book
  rebuilds : ∀ val, ¬ Rebuilds pax event val

variable {book made more : List Request}

/-- A request that comes from somewhere is booked. -/
theorem Source.booked {req : Request} (source : Source start event node more req)
    (honest : Honest book start.pax event)
    (cached : ∀ req ∈ node.pax.rcache, req ∈ book ++ made) : req ∈ book ++ (made ++ more) := by
  -- By where the request comes from; an honest acceptor rebuilds none.
  rw [← List.append_assoc]
  cases source with
  | cached mem => exact List.mem_append_left _ (cached req mem)
  | rebuilt rebuilds => exact absurd rebuilds (honest.rebuilds req.val)
  | brought brings =>
    exact List.mem_append_left _ (List.mem_append_left _ (honest.brings req brings))
  | own mem => exact List.mem_append_right _ mem

/-- What a move may tell carries booked requests only, and is no chat. -/
theorem Tells.booked {effect : Effect} (tells : Tells start event more node next effect)
    (honest : Honest book start.pax event)
    (cached : ∀ req ∈ node.pax.rcache, req ∈ book ++ made) :
    (∀ data desc, effect ≠ .chat data desc) ∧
      ∀ peer msg, effect = .send peer msg → msg.Booked (book ++ (made ++ more)) := by
  -- A message carries a request that the event brought or that was cached, hence booked.
  cases tells with
  | side side =>
    cases side with
    | send peer msg _ known =>
      refine ⟨by simp, ?_⟩
      rintro _ _ ⟨⟩ req carries
      rw [carries] at known
      exact Source.booked known honest cached
    | hello =>
      refine ⟨by simp, ?_⟩
      rintro _ _ ⟨⟩ req carries
      cases carries
    | _ => exact ⟨by simp, by simp⟩
  | commit => exact ⟨by simp, by simp⟩
  | _ =>
    refine ⟨by simp, ?_⟩
    rintro _ _ ⟨⟩ req carries
    simp [prepareMsg] at carries

/-- What a learn tells are the data of a cached request. -/
theorem learnt_reports {inst : Instance}
    (cached : ∀ req ∈ node.pax.rcache, req ∈ book) :
    Reports book (.learn inst.hdr.inum inst.val ::
      heard node.pax inst.val (learnRequest node.pax inst.val)) := by
  -- Only a chat from a listed sender is heard, and its request is the cached one.
  refine ⟨?_, ?_⟩
  · unfold Motmot.heard
    split
    · rename_i req acc kind found sender
      simp only [learnRequest, kind, requestNeedsCached] at found
      obtain ⟨mem, same⟩ := SortedList.findFwd_mem found
      exact .chat (cached req mem) same .nil
    · exact .other (by simp) .nil
  · intro peer msg mem
    rcases List.mem_cons.mp mem with same | mem
    · cases same
    · obtain ⟨-, _, _, -, -, same⟩ := mem_heard mem
      cases same

/-- A move reports what it adds to the record, of requests that are booked or made in it. -/
theorem Move.reports {config after : Config} (move : Move start event config after)
    (wf : config.node.pax.ilist.WellFormed) (honest : Honest book start.pax event)
    (cached : ∀ req ∈ config.node.pax.rcache, req ∈ book ++ made) :
    ∃ more effects, Tale start event config.node after.node more effects ∧
      Reports (book ++ (made ++ more)) effects := by
  -- A move tells something, or it learns an instance.
  rcases move.adds wf with ⟨more, effects, tale, tells⟩ | ⟨addr, inst, -, -, -, -, -, learns⟩
  · have booked := fun effect mem => (tells effect mem).booked honest cached
    refine ⟨more, effects, tale, .silent fun effect mem => (booked effect mem).1, ?_⟩
    intro peer msg mem
    exact (booked _ mem).2 peer msg rfl
  · rw [learns]
    refine ⟨[], _, learnt_tale config.node addr inst _, ?_⟩
    rw [List.append_nil]
    exact learnt_reports cached

/-- A handler begins with nothing made. -/
theorem Keeps.init (cached : ∀ req ∈ start.pax.rcache, req ∈ book) :
    Keeps book start event start [] where
  self := rfl
  counted := Nat.le_refl _
  issued := .none
  cached := by simpa using cached
  told := ⟨[], by simp, .nil, by simp⟩

/-- Every move adds to what was made before. -/
theorem Keeps.move {config after : Config} (keeps : Keeps book start event config.node made)
    (move : Move start event config after) (wf : config.node.pax.ilist.WellFormed)
    (honest : Honest book start.pax event) :
    ∃ more, Keeps book start event after.node (made ++ more) := by
  -- What the move makes and tells is added behind what was there.
  obtain ⟨more, late, tale, reports⟩ := move.reports wf honest keeps.cached
  have counted := (move.asks wf).counted
  obtain ⟨early, out, first⟩ := keeps.told
  refine ⟨more, move.selfId keeps.self, Nat.le_trans keeps.counted counted,
    keeps.issued.append tale.issued keeps.self keeps.counted counted, ?_, ?_⟩
  · intro req mem
    exact Source.booked (tale.cached req mem) honest keeps.cached
  · refine ⟨early ++ late, by rw [tale.out, out, List.append_assoc], .append (first.mono ?_)
      reports⟩
    intro req mem
    rw [← List.append_assoc]
    exact List.mem_append_left _ mem

/-- A handler that halts has reported no more than its moves. -/
theorem Halts.reports {reason : Stop} {reached halted : Node}
    (halts : Halts reason reached halted) :
    ∃ effects, halted.out = reached.out ++ effects ∧ Reports book effects := by
  -- A handler that halts has at most learned a value more than it has reported.
  rcases halts.out with out | failed
  · exact ⟨[], by rw [out, List.append_nil], .nil, by simp⟩
  · cases halts.unsent failed with
    | @learn addr inst =>
      refine ⟨[.learn inst.hdr.inum inst.val], rfl, .other (by simp) .nil, ?_⟩
      intro peer msg mem
      cases List.mem_singleton.mp mem

/-- A handler caches and reports what is booked or what it has made itself. -/
theorem handle_keeps {fuel : Nat} (wf : start.pax.ilist.WellFormed)
    (honest : Honest book start.pax event) (cached : ∀ req ∈ start.pax.rcache, req ∈ book) :
    ∃ made mid, Keeps book start event mid made ∧
      (∀ next, handle fuel start event = .ok next → mid = next) ∧
        Reports (book ++ made) (fresh start (handle fuel start event)) := by
  -- The account goes through all the moves, and a halting handler adds what it told last.
  have account := @handle_invariant start fuel event
    (fun config => ∃ made, Keeps book start event config.node made) wf ⟨[], .init cached⟩
      fun move wf ⟨_, keeps⟩ => by
        obtain ⟨more, keeps⟩ := keeps.move move wf honest
        exact ⟨_, keeps⟩
  unfold fresh
  cases result : handle fuel start event with
  | ok next =>
    obtain ⟨made, keeps⟩ := account.1 next result
    obtain ⟨effects, out, reports⟩ := keeps.told
    refine ⟨made, next, keeps, by simp, ?_⟩
    show Reports _ (next.out.drop _)
    rw [out, List.drop_left]
    exact reports
  | stop reason halted =>
    obtain ⟨reached, ⟨made, keeps⟩, -, halts⟩ := account.2 reason halted result
    obtain ⟨effects, out, reports⟩ := keeps.told
    obtain ⟨last, more, late⟩ := @Halts.reports (book ++ made) _ _ _ halts
    refine ⟨made, reached.node, keeps, by simp, ?_⟩
    show Reports _ (halted.out.drop _)
    rw [more, out, List.append_assoc, List.drop_left]
    exact reports.append late

end Motmot
