import EditScript.Document.Block

namespace EditScript

@[ext] structure Image where
  contentUri : Option String
  sourceUri : Option String
  deriving DecidableEq

@[ext] structure Embedded where
  title : Option String
  description : Option String
  image : Option Image
  deriving DecidableEq

def Embedded.empty : Embedded := ⟨none, none, none⟩

@[ext] structure InlineObject where
  id : Option String
  embedded : Embedded
  deriving DecidableEq

namespace InlineObject

def empty : InlineObject := ⟨none, .empty⟩

def image (uri : String) : InlineObject := ⟨none, none, none, some ⟨some uri, none⟩⟩

/-- The address of the image, if the object is one and has an address. -/
def contentUri (object : InlineObject) : Option String := object.embedded.image >>= Image.contentUri

end InlineObject

@[ext] structure Document where
  id : Option String
  title : Option String
  content : List Block
  inlineObjects : Dict InlineObject
  deriving DecidableEq

namespace Document

def ofContent (content : List Block) : Document := ⟨none, none, content, .empty⟩

def push (document : Document) (block : Block) : Document :=
  { document with content := document.content ++ [block] }

def putObject (document : Document) (id : String) (object : InlineObject) : Document :=
  { document with inlineObjects := document.inlineObjects.put id object }

def object? (document : Document) (id : String) : Option InlineObject :=
  document.inlineObjects.get? id

end Document
end EditScript
