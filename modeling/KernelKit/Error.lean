import KernelKit.Target

/-!
# The crate's error type

`Error` follows `kernelkit::Error` variant by variant. `IoError` keeps what the crate puts into
a `std::io::Error`: either the operating system's answer, or a kind and a message of its own.
-/

namespace KernelKit

inductive ErrorKind
  | invalidData
  | invalidInput
  | other
  deriving DecidableEq, Repr

/-- `std::io::Error`: `last_os_error()` with its errno, or an error built by the crate. Where the
crate formats a path into the message the path is kept as its components: `customPath` stands for
`{message}{path}`, and `atPath` for an error of kind `Other` reading `{source} (path: {path})`. -/
inductive IoError
  | os (errno : ℕ)
  | custom (kind : ErrorKind) (message : String)
  | customPath (kind : ErrorKind) (message : String) (path : List (List UInt8))
  | atPath (source : IoError) (path : List (List UInt8))
  deriving DecidableEq, Repr

inductive Error
  | allocationOverflow (count : ℕ) (typeName : String)
  | allocationFailed (count : ℕ) (typeName : String)
  | nullPointer
  | invalidNode (node available : ℕ)
  | system (operation : String) (source : IoError)
  | sysfsRead (path : String) (source : IoError)
  | sysfsParse (path : String)
  | invalidMagic
  | unsupportedVersion (version maxVersion : UInt64)
  | sectionTooLarge (length : UInt64)
  | unexpectedEof (context : String) (needed remaining : ℕ)
  | libraryLoad (library : String)
  | symbolLoad (library symbol : String)
  deriving DecidableEq, Repr

end KernelKit
