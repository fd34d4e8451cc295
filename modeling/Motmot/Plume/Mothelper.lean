import Motmot.Plume.Value

/-! The database of the server, its queries, and the connections that the server keeps. -/

namespace Motmot.Plume

/-- A row of the `users` table. -/
structure Account where
  userName : Option Text
  password : Option Text
  deriving DecidableEq

/-- A row of the `friends` table. -/
structure Friendship where
  userName : Option Text
  friend : Option Text
  accepted : Text
  deriving DecidableEq

/-- What the column reads when a request has not been accepted. -/
def notAccepted : Text := ['F', 'a', 'l', 's', 'e']

/-- What the column reads once a request has been accepted. -/
def isAccepted : Text := ['t', 'r', 'u', 'e']

/-- Comparison of a column with a parameter, which fails on nulls. -/
def sqlEq (column parameter : Option Text) : Bool :=
  column.isSome && column = parameter

/-- Whether a row is the one that a pair of parameters names. -/
def Friendship.named (row : Friendship) (pair : Option Text × Option Text) : Bool :=
  sqlEq row.userName pair.1 && sqlEq row.friend pair.2

/-- The addresses of the peers of connections. -/
structure Address where
  ip : Text
  port : Int
  deriving DecidableEq

/-- What `authList` holds of a connection: the name it is authenticated under and its status. -/
structure Session where
  name : Value
  status : Value

/-- The state of the server: its database, its dictionaries and what its connections sent. -/
structure Server where
  /-- The domain that the server is run for. -/
  domain : Text
  users : List Account
  friends : List Friendship
  /-- The authenticated connections, by address. -/
  authList : List (Address × Session)
  /-- The connections to push updates to, by the name they are authenticated under. -/
  connTbl : List (Key × Address)
  /-- The messages sent so far, with the connection of each. -/
  sent : List (Address × Value)

/-- Handlers run on the server and may raise an exception. -/
abbrev Rpc (α : Type) := Act Exn Server α

/-- Assigns a key of a dictionary. -/
def assign {κ ν : Type} [DecidableEq κ] (k : κ) (v : ν) (dict : List (κ × ν)) : List (κ × ν) :=
  (k, v) :: dict.filter fun entry => entry.1 ≠ k

/-- Removes a key of a dictionary if it has it. -/
def remove {κ ν : Type} [DecidableEq κ] (k : κ) (dict : List (κ × ν)) : List (κ × ν) :=
  dict.filter fun entry => entry.1 ≠ k

/-- Queues a message on a connection. -/
def send (conn : Address) (message : Value) : Rpc Unit :=
  .write fun server => { server with sent := server.sent ++ [(conn, message)] }

/-- Binds one parameter. -/
def bindOne (x : Value) : Except Exn (Option Text) := x.bind

/-- Binds two parameters. -/
def bindTwo (x y : Value) : Except Exn (Option Text × Option Text) := do
  let first ← x.bind
  let second ← y.bind
  return (first, second)

/-- Runs a query whose answer is one row of one column or none. -/
def executeQuery {π : Type} (params : Except Exn π) (statement : π → Server → Option Nat × Server) :
    Rpc (Option Nat) := do
  match params with
  | .ok bound =>
    let server ← .read
    .write fun server => (statement bound server).2
    return (statement bound server).1
  -- Errors of the database are printed, and the query answers nothing.
  | .error .databaseError => return none
  | .error e => .raise e

/-- The column of the row that a query answered. -/
def fetched : Option Nat → Rpc Nat
  | some n => .ret n
  | none => .raise .typeError

/-- `SELECT count(userId) FROM users WHERE userName=?` -/
def countUser (name : Option Text) (server : Server) : Option Nat × Server :=
  (some (server.users.countP fun row => sqlEq row.userName name), server)

/-- `SELECT COUNT(friendId) from friends WHERE userName=? AND friend=?;` -/
def countFriend (pair : Option Text × Option Text) (server : Server) : Option Nat × Server :=
  (some (server.friends.countP fun row => row.named pair), server)

/-- `INSERT INTO friends (userName, friend, accepted) VALUES (?, ?, 'False');` -/
def insertFriend (pair : Option Text × Option Text) (server : Server) : Option Nat × Server :=
  (none, { server with friends := server.friends ++ [⟨pair.1, pair.2, notAccepted⟩] })

/-- `DELETE FROM friends WHERE userName=? AND friend=?;` -/
def deleteFriend (pair : Option Text × Option Text) (server : Server) : Option Nat × Server :=
  (none, { server with friends := server.friends.filter fun row => !row.named pair })

/-- Sets the accept bit of a row if it is the one that a pair of parameters names. -/
def Friendship.update (pair : Option Text × Option Text) (row : Friendship) : Friendship :=
  if row.named pair then { row with accepted := isAccepted } else row

/-- `UPDATE friends SET accepted='true' WHERE userName=? AND friend=?;` -/
def updateFriend (pair : Option Text × Option Text) (server : Server) : Option Nat × Server :=
  (none, { server with friends := server.friends.map (Friendship.update pair) })

end Motmot.Plume
