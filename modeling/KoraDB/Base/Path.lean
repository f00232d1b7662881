import KoraDB.Base.Bytes

/-!
# `path/filepath` on Unix

Lexical path cleaning and the directory part of a path.
-/

namespace KoraDB.Base.Path

def slash : UInt8 := 0x2F

/-- One element of a path onto the cleaned elements before it, last first. -/
def cleanStep (rooted : Bool) (stack : List Bytes) (elem : Bytes) : List Bytes :=
  if elem = [] ∨ elem = ascii "." then stack
  else if elem = ascii ".." then
    match stack with
    | top :: rest => if top = ascii ".." then elem :: stack else rest
    | [] => if rooted then [] else [elem]
  else elem :: stack

/-- `filepath.Clean`. -/
def clean (path : Bytes) : Bytes :=
  let rooted := path.head? == some slash
  let elems := ((path.splitOn slash).foldl (cleanStep rooted) []).reverse
  let body := [slash].intercalate elems
  if rooted then slash :: body else if body = [] then ascii "." else body

/-- `filepath.Dir`. -/
def dir (path : Bytes) : Bytes := clean (path.reverse.dropWhile (· != slash)).reverse

example : clean (ascii "/data//x/../k.db") = ascii "/data/k.db" := by decide +kernel

example : dir (ascii "/data/k.db") = ascii "/data" ∧ dir (ascii "k.db") = ascii "." := by
  decide +kernel

end KoraDB.Base.Path
