/-
Strings and path names: `path_parse` and `path_depth_cnt` of `fs/fs.c`, and the
functions of `lib/string.c` that file functions call.

A string is the list of its characters up to the terminating zero.
-/
import OsTruth.Fs.State

namespace OsTruth

abbrev Str := List UInt8

def slash : UInt8 := 47
def dot : UInt8 := 46

def maxFileNameLen : Nat := 16
def maxPathLen : Nat := 512

/-- `strrchr(s, '/') + 1`.  Without a slash `strrchr` returns `NULL`. -/
def afterLastSlash (s : Str) : Except Fault Str :=
  if slash ∈ s then .ok (s.reverse.takeWhile (· ≠ slash)).reverse else .error .undefined

/-- `path_parse`: the first component and the rest of the path, `NULL` at its end.
The condition of the source stores a slash in `pathname[0]`, and the loop behind it
compares a pointer with a character, so exactly one byte is skipped, whatever it is.
`name_store` has 16 bytes, and the component gets no terminating zero. -/
def pathParse : Str → Except Fault (Str × Option Str)
  | [] => .error .undefined
  | _ :: path =>
      let name := path.takeWhile (· ≠ slash)
      let rest := path.dropWhile (· ≠ slash)
      if name.length ≤ maxFileNameLen then
        .ok (name, if rest = [] then none else some rest)
      else .error .undefined

/-- The loop of `pathDepthCnt`.  Each round takes a byte of the path, so its length is
enough rounds. -/
def depthLoop : Nat → Str → Option Str → Nat → Except Fault Nat
  | _, [], _, depth => .ok depth
  | 0, _, _, _ => .error .undefined
  | _ + 1, _, none, depth => .ok (depth + 1)
  | left + 1, _, some p, depth => do
      let (name, p) ← pathParse p
      depthLoop left name p (depth + 1)

/-- `path_depth_cnt`.  `name` is not initialised, so its first byte must have been
written by the first `path_parse`. -/
def pathDepthCnt (pathname : Str) : Except Fault Nat := do
  let (name, p) ← pathParse pathname
  if name = [] then .error .undefined
  else depthLoop pathname.length name p 0

/-- What `path_depth_cnt` leaves in the caller's string. -/
def parsedPath (pathname : Str) : Str := slash :: pathname.drop 1

end OsTruth
