import ChunkConfig.Xml.Assembly
import ChunkConfig.Xml.Layout
import ChunkConfig.Xml.Scan

namespace ChunkConfig.Xml

/-- Reads a document. A fault in the text is found before an element that is never closed. -/
def parse (input : Bytes) : Except Fault Node :=
  match scan input with
  | .error fault => .error fault
  | .ok events =>
    match assemble events with
    | .error name => .error (.unclosedElement name)
    | .ok nodes => .ok (.document nodes)

def readDocument (input : Bytes) : Except ReadError Node :=
  (parse input).mapError Fault.readError

end ChunkConfig.Xml
