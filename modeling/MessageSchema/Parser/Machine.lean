/-
  The parsing machine.

  The machine keeps a stack of frames, one for every rule that it is in the
  middle of, each with the items it still has to derive.  A step takes the next
  item of the innermost frame.

  If an item cannot be derived, the machine records a complaint.  A *strict*
  machine stops there; a *recovering* one goes on:

  * a missing token is taken as read if the next token can follow it; one
    token too many in front of it is passed over;
  * after a repetition that a token must follow, tokens are passed over until
    that token or another round comes;
  * otherwise the innermost rule that the next token of interest can follow is
    taken as finished, and the tokens before it are passed over.
-/
import MessageSchema.Fault
import MessageSchema.Parser.Tree

namespace MessageSchema

/-- What a machine does after a complaint. -/
inductive Policy where
  | strict
  | recovering
  deriving DecidableEq, Repr

/-- A complaint and the token it is about, `none` at the end of the text. -/
structure Complaint where
  expectation : Expectation
  token : Option Token
  deriving DecidableEq, Repr

/-- A place in the tokens of a text. -/
structure Cursor where
  /-- the token before the place -/
  before : Option Token
  /-- the tokens after the place -/
  ahead : List Token

namespace Cursor

/-- The kind of the next token, `none` at the end of the text. -/
def next (c : Cursor) : Option Kind := c.ahead.head?.map (·.kind)

/-- The kind of the token after the next one. -/
def second (c : Cursor) : Option Kind := c.ahead[1]?.map (·.kind)

/-- The place after the next token. -/
def advance (c : Cursor) : Cursor :=
  match c.ahead with
  | [] => c
  | t :: ts => ⟨some t, ts⟩

/-- The place so many tokens ahead. -/
def skip (c : Cursor) : Nat → Cursor
  | 0 => c
  | n + 1 => c.advance.skip n

/-- Whether the next token is of one of some kinds. -/
def startsWith (c : Cursor) (kinds : List Kind) : Bool :=
  match c.next with
  | some k => kinds.contains k
  | none => false

/-- Whether the guard of a repetition admits another round. -/
def allows (c : Cursor) : Guard → Bool
  | .always => true
  | .notBeforeColon => c.second != some .colon
  | .sameLine =>
    match c.before, c.ahead.head? with
    | some b, some t => t.first.line == b.last.line
    | _, _ => false

end Cursor

/-- A rule that the machine is in the middle of. -/
structure Frame where
  rule : Rule
  /-- what has been derived, last first -/
  done : List Tree
  /-- what is still to be derived -/
  pending : List Item

/-- The machine: its frames, innermost first, its place in the text, what it has
    complained about, and the tree once it is finished. -/
structure Machine where
  frames : List Frame
  cursor : Cursor
  complaints : List Complaint
  tree : Option Tree

namespace Machine

/-- The machine before its first step. -/
def start (tokens : List Token) : Machine :=
  ⟨[⟨.file, [], Rule.file.body⟩], ⟨none, tokens⟩, [], none⟩

/-- Records a complaint about the next token. -/
def complain (m : Machine) (e : Expectation) : Machine :=
  { m with complaints := m.complaints ++ [⟨e, m.cursor.ahead.head?⟩] }

/-- Ends the rule of frame `f`, whose callers are `callers`. -/
def close (m : Machine) (f : Frame) (callers : List Frame) : Machine :=
  let t := Tree.node f.rule f.done.reverse
  match callers with
  | [] => { m with frames := [], tree := some t }
  | g :: gs => { m with frames := { g with done := t :: g.done } :: gs }

/-! ## Recovery -/

/-- The tokens at which the innermost of several rules may be taken as finished:
    those that its caller can go on with, or the end of the text. -/
def stopsOf (callers : List Frame) : List (Option Kind) :=
  match callers with
  | [] => [none]
  | g :: _ => (firstOf g.pending).map some

/-- The tokens at which some rule of a stack may be taken as finished. -/
def allStops : List Frame → List (Option Kind)
  | [] => []
  | _ :: callers => stopsOf callers ++ allStops callers

/-- How many tokens stand before the first one of interest. -/
def distance (stops : List (Option Kind)) : List Token → Nat
  | [] => 0
  | t :: ts => if stops.contains (some t.kind) then 0 else distance stops ts + 1

/-- Gives up the innermost rule and, as long as the next token of interest cannot
    follow it, the rules around it. -/
def unwind (m : Machine) : List Frame → Machine
  | [] => { m with frames := [] }
  | f :: callers =>
    let there := m.cursor.skip (distance (allStops (f :: callers)) m.cursor.ahead)
    if (stopsOf callers).contains there.next then { m with cursor := there }.close f callers
    else m.unwind callers

/-- Stops, or gives up the innermost rule, after a complaint. -/
def fail (policy : Policy) (m : Machine) : Machine :=
  match policy with
  | .strict => { m with frames := [] }
  | .recovering => m.unwind m.frames

/-- The tokens that the items still to be derived can start with. -/
def firstPending (items : List Item) (callers : List Frame) : List Kind :=
  firstOf (items ++ callers.flatMap (·.pending))

/-- What must follow a repetition in frame `f`: a token, or, for the outermost
    rule, the end of the text. -/
def mustFollow (items : List Item) (callers : List Frame) : Option (Option Kind) :=
  match items, callers with
  | .token k :: _, _ => some (some k)
  | [], [] => some none
  | _, _ => none

/-- Where the search after a repetition leads. -/
inductive Landing where
  /-- to what must follow, so many tokens ahead -/
  | follow (distance : Nat)
  /-- to another round, so many tokens ahead -/
  | round (distance : Nat)
  /-- to a token that concerns another rule -/
  | elsewhere

/-- Searches for what must follow a repetition, another round of it, or a token
    that stops the search. -/
def search (must : Option Kind) (round : List Kind) (stop : Option Kind) (n : Nat) :
    List Token → Landing
  | [] => if must = none then .follow n else .elsewhere
  | t :: ts =>
    if must = some t.kind then .follow n
    else if round.contains t.kind then .round n
    else if stop = some t.kind then .elsewhere
    else search must round stop (n + 1) ts

/-- Leaves a repetition with body `body` that cannot have another round here. -/
def leave (m : Machine) (f : Frame) (callers : List Frame) (body : List Item) (items : List Item) :
    Machine :=
  let left := { m with frames := { f with pending := items } :: callers }
  match mustFollow items callers with
  | none => left
  | some must =>
    let follows := if must = none then [] else firstPending items.tail callers
    if m.cursor.next = must ∨ m.cursor.startsWith follows ∨ m.cursor.second = must then left
    else
      let stops := allStops (f :: callers)
      let stop := (m.cursor.skip (distance stops m.cursor.ahead)).next
      match search must (firstOf body) stop 0 m.cursor.ahead with
      | .follow n => { left.complain (.token must) with cursor := m.cursor.skip n }
      | .round n => { m.complain (.token must) with cursor := m.cursor.skip n }
      | .elsewhere => left

/-! ## Steps -/

/-- Takes a token of a kind, or complains. -/
def token (policy : Policy) (m : Machine) (f : Frame) (callers : List Frame) (k : Kind)
    (items : List Item) : Machine :=
  let take (c : Cursor) : Machine :=
    { m with
      frames := { f with done := (c.ahead.head?.map Tree.leaf).toList ++ f.done, pending := items }
        :: callers
      cursor := c.advance }
  if m.cursor.next = some k then take m.cursor
  else
    let m := m.complain (.token (some k))
    match policy with
    | .strict => m.fail .strict
    | .recovering =>
      if m.cursor.startsWith (firstPending items callers) then
        { m with frames := { f with pending := items } :: callers }
      else if m.cursor.second = some k then
        { take m.cursor.advance with complaints := m.complaints }
      else m.fail .recovering

/-- One step of the machine: the next item of the innermost frame. -/
def step (policy : Policy) (m : Machine) : Machine :=
  match m.frames with
  | [] => m
  | f :: callers =>
    let goOn (items : List Item) : Machine :=
      { m with frames := { f with pending := items } :: callers }
    match f.pending with
    | [] => m.close f callers
    | .token k :: items => m.token policy f callers k items
    | .rule r :: items =>
      { m with frames := ⟨r, [], r.body⟩ :: { f with pending := items } :: callers }
    | .optional body :: items =>
      if m.cursor.startsWith (firstOf body) then goOn (body ++ items) else goOn items
    | .many guard body :: items =>
      if m.cursor.startsWith (firstOf body) && m.cursor.allows guard then
        goOn (body ++ .many guard body :: items)
      else
        match policy with
        | .strict => goOn items
        | .recovering => m.leave f callers body items
    | .many1 guard body :: items =>
      if m.cursor.startsWith (firstOf body) && m.cursor.allows guard then
        goOn (body ++ .many guard body :: items)
      else (m.complain (.round (firstOf body))).fail policy
    | .choice alternatives :: items =>
      match alternatives.find? fun a => m.cursor.startsWith (firstOf a) with
      | some a => goOn (a ++ items)
      | none => (m.complain (.alternative (choiceFirst Rule.first alternatives))).fail policy

/-- Runs the machine until it has no frames left, for at most so many steps. -/
def run (policy : Policy) : Nat → Machine → Machine
  | 0, m => m
  | n + 1, m => if m.frames.isEmpty then m else run policy n (m.step policy)

/-- More steps than the machine can take on so many tokens: between two tokens it
    enters and leaves only a few rules. -/
def stepBound (tokens : Nat) : Nat := 256 * (tokens + 2)

/-- Complains about the tokens that are left once the machine is finished. -/
def complainOfRest (m : Machine) : Machine :=
  if m.cursor.ahead.isEmpty then m else m.complain .nothing

/-- Parses the tokens of a text. -/
def parse (policy : Policy) (tokens : List Token) : Machine :=
  ((start tokens).run policy (stepBound tokens.length)).complainOfRest

end Machine

end MessageSchema
