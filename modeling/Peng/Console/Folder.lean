/-!
# Folders

The files that a command may be asked to read: names in one folder and in folders inside it.
Nothing is known of what lies outside, except that the way there leads through folders.
-/

namespace Peng

/-- What stands under a name. -/
inductive Entry where
  | file (bytes : ByteArray)
  | folder

/-- What was read, or why nothing can be read. -/
inductive Contents where
  | bytes (bytes : ByteArray)
  | missing
  | folder
  /-- The path goes on behind a file. -/
  | behindFile

/-- Paths with what stands there. Folders that such a path leads through need no entry. -/
abbrev Folder := List (String × Entry)

/-- The steps of a path. -/
def pathSteps (path : String) : List String :=
  path.splitOn "/"

/-- Whether a step stays where it is. -/
def staysHere (step : String) : Bool :=
  step == "" || step == "."

namespace Folder

/-- What stands at the end of the steps `place`, none of which stays or leads back. -/
def contentsAt (folder : Folder) (place : List String) : Contents :=
  if place = [] then .folder
  else
    match folder.find? (pathSteps ·.1 = place) with
    | some (_, .file bytes) => .bytes bytes
    | some (_, .folder) => .folder
    | none =>
      if folder.any fun (path, _) => place.isPrefixOf (pathSteps path) then .folder else .missing

/-- What steps lead to from a place inside the folder. Every step starts from a folder. -/
def follow (folder : Folder) (place : List String) : List String → Contents
  | [] => folder.contentsAt place
  | step :: steps =>
    match folder.contentsAt place with
    | .bytes _ => .behindFile
    | .folder =>
      if staysHere step then folder.follow place steps
      else if step = ".." then
        if place = [] then if steps.all staysHere then .folder else .missing
        else folder.follow place.dropLast steps
      else folder.follow (place ++ [step]) steps
    | other => other

/-- What a path leads to from the folder. The empty path leads nowhere. -/
def read (folder : Folder) (path : String) : Contents :=
  match path.toList with
  | [] => .missing
  | '/' :: _ => if (pathSteps path).all staysHere then .folder else .missing
  | _ => folder.follow [] (pathSteps path)

end Folder

end Peng
