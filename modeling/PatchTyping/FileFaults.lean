/-!
# Files that cannot be used

The ways in which reading or writing a file fails, in the words and with the numbers of the operating
system.
-/

namespace PatchTyping

inductive FileFault where
  | missing
  | denied
  | notDirectory
  | isDirectory
  | other (reason : String)
deriving DecidableEq, Repr

namespace FileFault

def message : FileFault → String
  | missing => "No such file or directory (os error 2)"
  | denied => "Permission denied (os error 13)"
  | notDirectory => "Not a directory (os error 20)"
  | isDirectory => "Is a directory (os error 21)"
  | other reason => reason

end FileFault

end PatchTyping
