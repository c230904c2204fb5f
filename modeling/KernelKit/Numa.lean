import KernelKit.Memory
import KernelKit.RustString

/-!
# NUMA node counting and memory binding

`nodeCount` asks libnuma, then sysfs; `validateNode` compares a node with it, and `bindMemoryToNode`
hands the mask of one node to `mbind`. What these functions read is a `NumaEnv` that does not change
while they run, so the cell that caches the loaded library holds what `tryLoad` gives.
-/

namespace KernelKit.Numa
open Interaction RustString

structure SharedLibrary where
  symbols : List String
  available : Int32
  maxNode : Int32
  deriving DecidableEq, Repr

/-- What the environment answers: the libraries by name, the text of the sysfs file `online`, and the
names in the sysfs directory, each as `to_string_lossy` shows it. -/
structure NumaEnv where
  library : String → Option SharedLibrary
  online : Option (List Char)
  listing : Option (List (List Char))

def librarySymbols : List String :=
  ["numa_available", "numa_max_node", "numa_run_on_node", "numa_tonode_memory"]

def loadFromName (env : NumaEnv) (libraryName : String) : Except Error (Option SharedLibrary) :=
  match env.library libraryName with
  | none => .error (.libraryLoad libraryName)
  | some library =>
    match librarySymbols.find? (fun symbol => symbol ∉ library.symbols) with
    | some symbol => .error (.symbolLoad libraryName symbol)
    | none => if library.available < 0 then .ok none else .ok (some library)

def tryCandidates (env : NumaEnv) : List String → Except Error (Option SharedLibrary)
  | [] => .ok none
  | libraryName :: candidates =>
    match loadFromName env libraryName with
    | .ok (some library) => .ok (some library)
    | .ok none | .error (.libraryLoad _) => tryCandidates env candidates
    | .error other => .error other

def tryLoad (env : NumaEnv) : Except Error (Option SharedLibrary) :=
  tryCandidates env ["libnuma.so.1", "libnuma.so"]

/-! ### Counting nodes -/

def rangeEnd (w : Width) (range : List Char) : Option ℕ :=
  let range := trim range
  match splitOnce '-' range with
  | some (_, stop) => parseUnsigned w.usizeMax stop
  | none => parseUnsigned w.usizeMax range

/-- One turn of the loop over the items. -/
def takeRange (w : Width) (maxNode : Option ℕ) (range : List Char) : Option ℕ :=
  match rangeEnd w range with
  | some idx => some (maxNode.elim idx fun m => max m idx)
  | none => maxNode

def maxNode (w : Width) (content : List Char) : Option ℕ :=
  ((trim content).splitOn ',').foldl (takeRange w) none

/-- The names the directory count goes by: `node`, then nothing but digits. -/
def isNodeEntry (name : List Char) : Bool :=
  ['n', 'o', 'd', 'e'].isPrefixOf name && (name.drop 4).all Char.isDigit

def countNodeEntries (listing : List (List Char)) : Option ℕ :=
  let count := listing.countP isNodeEntry
  if count > 0 then some count else none

def sysfsNodeCount (w : Width) (env : NumaEnv) : Option ℕ :=
  match env.online.bind (maxNode w) with
  | some maxIdx => some (saturatingAdd w.usizeMax maxIdx 1)
  | none => env.listing.bind countNodeEntries

def sysfsOrOne (w : Width) (env : NumaEnv) : ℕ :=
  match sysfsNodeCount w env with
  | some count => max count 1
  | none => 1

/-- `max_node` plus one saturates at `i32::MAX`, which every `usize` holds. -/
def nodeCount (w : Width) (env : NumaEnv) : ℕ :=
  match tryLoad env with
  | .ok (some library) =>
    if 0 ≤ library.maxNode then max (min (library.maxNode.toInt + 1) (2 ^ 31 - 1)).toNat 1
    else sysfsOrOne w env
  | _ => sysfsOrOne w env

def validateNode (w : Width) (env : NumaEnv) (node : UInt32) : Except Error Unit :=
  let available := nodeCount w env
  if node.toNat < available then .ok () else .error (.invalidNode node.toNat available)

/-! ### Binding memory -/

def nodemaskForNode (w : Width) (node : UInt32) : List ℕ × ℕ :=
  let bitsPerUlong := w.bits
  let maskIndex := node.toNat / bitsPerUlong
  let bitPosition := node.toNat % bitsPerUlong
  let maskLen := maskIndex + 1
  let nodemask := (List.replicate maskLen 0).set maskIndex ((1 <<< bitPosition) % 2 ^ bitsPerUlong)
  (nodemask, node.toNat + 1)

def mpolBind : ℕ := 2

def mpolMfMove : ℕ := 1 <<< 1

def bindMemoryToNode {T : Type} (w : Width) (env : NumaEnv) (ptr len : ℕ) (node : UInt32) :
    MemProg T Unit :=
  match validateNode w env node with
  | .error error => throw error
  | .ok () => do
    let (nodemask, maxnode) := nodemaskForNode w node
    let result ← Prog.call (MemOp.mbind ptr len mpolBind nodemask maxnode mpolMfMove)
    match result with
    | Except.ok () => pure ()
    | Except.error source => throw (.system "mbind" source)

end KernelKit.Numa
