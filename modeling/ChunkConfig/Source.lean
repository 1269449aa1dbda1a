import ChunkConfig.Command
import ChunkConfig.Registration
import ChunkConfig.Schema.Reading
import ChunkConfig.Schema.Writing
import ChunkConfig.Writing
import ChunkConfig.Xml.Document

namespace ChunkConfig

/-- Reads a catalog from the text of a document. -/
def Catalog.read (source : Bytes) : Except ReadError (Reported Catalog) :=
  (Xml.readDocument source).map ofNode

def Catalog.write (options : Xml.WriteOptions) (c : Catalog) : String :=
  Xml.write options c.document

/-- Reads a database from the text of a document. -/
def Registry.readDatabase (r : Registry) (populate : Bool) (source : Bytes) :
    Except ReadError (Reported Database) :=
  (Xml.readDocument source).map (r.build populate)

/-- The text of a database, with a problem for each value that will not read back. -/
def Database.write (options : Xml.WriteOptions) (db : Database) : Reported String :=
  Xml.write options <$> db.document

/-- Reads commands from the text of a document. -/
def Registry.readCommands (r : Registry) (source : Bytes) :
    Except ReadError (Reported (List Command)) :=
  (Xml.readDocument source).map (Command.ofNode r)

/-- Reads a catalog and registers it. The problems of the reading come first. -/
def Registry.registerSource (r : Registry) (source : Bytes) :
    Except ReadError (Reported Registry) :=
  (Catalog.read source).map fun c => c >>= r.register

end ChunkConfig
