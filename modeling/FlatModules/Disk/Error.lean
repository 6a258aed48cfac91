/-!
# Disk — errors

Why an operation on the disk fails, and how that is worded.
-/

namespace FlatModules

/-- Why an operation on the disk fails. -/
inductive DiskError where
  | notFound
  | alreadyExists
  | notDirectory
  | isDirectory
  | nameTooLong
  | tooManyLinks
  /-- A path with a zero byte, which no path can hold. -/
  | zeroInPath
  /-- A zero byte in what a program is to be run with. -/
  | zeroInCommand
  | argumentsTooLong
  /-- Bytes that are no text. -/
  | notText
deriving DecidableEq

/-- The wording of a disk error. -/
def DiskError.message : DiskError → String
  | notFound => "No such file or directory (os error 2)"
  | alreadyExists => "File exists (os error 17)"
  | argumentsTooLong => "Argument list too long (os error 7)"
  | notDirectory => "Not a directory (os error 20)"
  | isDirectory => "Is a directory (os error 21)"
  | nameTooLong => "File name too long (os error 36)"
  | tooManyLinks => "Too many levels of symbolic links (os error 40)"
  | zeroInPath => "file name contained an unexpected NUL byte"
  | zeroInCommand => "nul byte found in provided data"
  | notText => "stream did not contain valid UTF-8"

end FlatModules
