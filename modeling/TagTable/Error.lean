/-!
# Errors

The reasons for which an operation on a table fails, with the code, the message and the name by
which each is reported.
-/

namespace TagTable

/-- Why an operation failed. -/
inductive Error where
  /-- A key or value of the wrong length, or a layout or call that is not allowed. -/
  | invalidArgument
  /-- The table had to grow and could not. -/
  | outOfMemory
  /-- The key to insert is present. -/
  | alreadyExists
  /-- The key to remove is absent. -/
  | notFound
  /-- A visitor stopped the traversal. -/
  | interrupted
  /-- The cursor has no more entries. -/
  | noMoreData
deriving DecidableEq

namespace Error

/-- The negated POSIX error code. -/
def code : Error → Int
  | invalidArgument => -22
  | outOfMemory => -12
  | alreadyExists => -17
  | notFound => -2
  | interrupted => -4
  | noMoreData => -61

/-- What a user is told. -/
def message : Error → String
  | invalidArgument => "invalid argument"
  | outOfMemory => "out of memory"
  | alreadyExists => "key already exists"
  | notFound => "key not found"
  | interrupted => "traversal interrupted"
  | noMoreData => "no more data"

/-- The name of the error. -/
def name : Error → String
  | invalidArgument => "InvalidArgument"
  | outOfMemory => "OutOfMemory"
  | alreadyExists => "AlreadyExists"
  | notFound => "NotFound"
  | interrupted => "Interrupted"
  | noMoreData => "NoMoreData"

/-- All errors. -/
def all : List Error :=
  [invalidArgument, outOfMemory, alreadyExists, notFound, interrupted, noMoreData]

/-- The error of a name. -/
def ofName? (name : String) : Option Error := all.find? (·.name == name)

end Error

end TagTable
