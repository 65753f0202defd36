import StructLib.Lib.Exec
import StructLib.Lib.Interleave
import StructLib.Lib.Tree
import StructLib.Lib.PtrTree
import StructLib.Lib.AvlTree
import StructLib.Lib.Ring
import StructLib.Lib.Family
import StructLib.Lib.Chain
import StructLib.Lib.Words
import StructLib.Lib.Falling
import StructLib.Lib.Ordered
import StructLib.Lib.Fills
import StructLib.Lib.Levels
import StructLib.Lib.Raise
import StructLib.Lib.Around
import StructLib.Rbtree.Model
import StructLib.Rbtree.Layout
import StructLib.Rbtree.Packing
import StructLib.Rbtree.Balance
import StructLib.Rbtree.Callbacks
import StructLib.Rbtree.Insert
import StructLib.Rbtree.Erase
import StructLib.Rbtree.Augment
import StructLib.Rbtree.Traverse
import StructLib.Rblist.Model
import StructLib.Rblist.Ops
import StructLib.Rblist.Refine
import StructLib.Rblist.Delete
import StructLib.Rblist.Count
import StructLib.Rblist.Intlist
import StructLib.Avltree.Model
import StructLib.Avltree.Layout
import StructLib.Avltree.Insert
import StructLib.Avltree.Refine
import StructLib.Avltree.File
import StructLib.Avltree.Clash
import StructLib.Avltree.Links
import StructLib.Avltree.Rotate
import StructLib.Avltree.Find
import StructLib.Avltree.Confined
import StructLib.Avltree.Delete
import StructLib.Avltree.Ascend
import StructLib.Avltree.WrongRotations
import StructLib.Avltree.Remove
import StructLib.Avltree.NotAvlTree
import StructLib.Avltree.TidyRemoval
import StructLib.Hashtable.Model
import StructLib.Hashtable.Layout
import StructLib.Hashtable.Ops
import StructLib.Hashtable.Refine
import StructLib.Hashtable.Enum
import StructLib.Hashtable.Family
import StructLib.Hashtable.Children
import StructLib.Hashtable.Kinship
import StructLib.Hashtable.Create
import StructLib.Dlist.Model
import StructLib.Dlist.Ops
import StructLib.Dlist.Refine
import StructLib.Dlist.Rotate
import StructLib.Hlist.Model
import StructLib.Hlist.Ops
import StructLib.Hlist.Refine
import StructLib.HashMap.Model
import StructLib.HashMap.Refine
import StructLib.Fifo.Model
import StructLib.Fifo.Queue
import StructLib.Kfifo.Model
import StructLib.Kfifo.Buffer
import StructLib.Kfifo.Threads
import StructLib.Kfifo.Copy
import StructLib.Kfifo.Create
import StructLib.Kfifo.Elements
import StructLib.Kfifo.Records
import StructLib.Kfifo.Delivery
import StructLib.Slist.Model
import StructLib.Slist.Stack
import StructLib.Slist.Lifo
import StructLib.Slist.ForEach
import StructLib.Btree.Model
import StructLib.Btree.Node
import StructLib.Btree.Stored
import StructLib.Btree.Descent
import StructLib.Btree.Insert
import StructLib.Btree.Remove
import StructLib.Btree.Rebalance
import StructLib.Btree.Holding
import StructLib.Btree.Memory
import StructLib.Btree.Lookup
import StructLib.Btree.Visit
import StructLib.Btree.Refine
import StructLib.Btree.Iterate
import StructLib.Btree.Merge
import StructLib.Strlist.Model
import StructLib.Strlist.Queries
import StructLib.Strlist.Parse
import StructLib.Strlist.Load
import StructLib.Jhash.Model
import StructLib.Jhash.Agree
